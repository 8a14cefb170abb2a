import Rocshmem.BootstrapCalls

/-! The sockets of the bootstrap network. A rank opens a socket to a peer when it first sends to
that peer with a tag, and sends its rank and the tag on it. A rank that waits for a peer and a
tag accepts connections in whatever order they come, and keeps each under the rank and the tag
that it reads from it, until the one it waits for is there. -/
namespace BootstrapSockets

open BootstrapCalls FifoPrograms Function GuardedMachines List

inductive Frame where
  | int (n : ℕ)
  | data (l : Label) (v : Payload)

structure Socket where
  source : ℕ
  target : ℕ
  stream : List Frame
  read : ℕ
  accepted : Bool

namespace Socket

def push (x : Socket) (f : Frame) : Socket := { x with stream := x.stream ++ [f] }

def pop (x : Socket) : Socket := { x with read := x.read + 1 }

def next (x : Socket) : Option Frame := x.stream[x.read]?

end Socket

/-- Where a rank is in `getPeerSendSocket` (connected, rank sent) or in `getPeerRecvSocket`
(about to accept, accepted, rank received). -/
inductive Pc where
  | ready
  | connected (k : ℕ)
  | sentRank (k : ℕ)
  | accepting
  | accepted (k : ℕ)
  | gotRank (k recvPeer : ℕ)
  deriving DecidableEq

structure Rank where
  pc : Pc
  done : List Op
  todo : List Op
  peerSendSockets : ℕ × ℕ → Option ℕ
  peerRecvSockets : ℕ × ℕ → Option ℕ
  mem : Memory

def Rank.advance (x : Rank) (a : Op) (rest : List Op) (m : Memory) : Rank :=
  { x with done := x.done ++ [a], todo := rest, mem := m }

structure State where
  rank : ℕ → Rank
  opened : ℕ
  socket : ℕ → Socket
  ring : ℕ → ℕ → List (Label × Payload)

def initial (S : Schedule) (mem : ℕ → Memory) : State where
  rank r := ⟨.ready, [], S.program r, fun _ => none, fun _ => none, mem r⟩
  opened := 0
  socket _ := ⟨0, 0, [], 0, false⟩
  ring _ _ := []

namespace State

def setRank (s : State) (r : ℕ) (x : Rank) : State :=
  { s with rank := update s.rank r x }

def setSocket (s : State) (k : ℕ) (x : Socket) : State :=
  { s with socket := update s.socket k x }

def setRing (s : State) (p q : ℕ) (ms : List (Label × Payload)) : State :=
  { s with ring := update s.ring p (update (s.ring p) q ms) }

end State

section Steps

variable (s : State) (r : ℕ) (rest : List Op) (l : Label) (x : Span)

def connect (q : ℕ) : State :=
  { s.setRank r { s.rank r with pc := .connected s.opened } with
    opened := s.opened + 1
    socket := update s.socket s.opened ⟨r, q, [], 0, false⟩ }

def sendPeer (p q t : ℕ) : Option State :=
  let me := s.rank r
  match me.pc with
  | .ready =>
    match me.peerSendSockets (q, t) with
    | some k =>
      some ((s.setSocket k ((s.socket k).push (.data l (readSpan me.mem x)))).setRank r
        (me.advance (.send (.peer p q t) l x) rest me.mem))
    | none => some (connect s r q)
  | .connected k =>
    some ((s.setSocket k ((s.socket k).push (.int r))).setRank r { me with pc := .sentRank k })
  | .sentRank k =>
    some ((s.setSocket k ((s.socket k).push (.int t))).setRank r
      { me with
        pc := .ready
        peerSendSockets := update me.peerSendSockets (q, t) (some k) })
  | _ => none

def recvPeer (p q t : ℕ) : Option State :=
  let me := s.rank r
  match me.pc with
  | .ready =>
    match me.peerRecvSockets (p, t) with
    | some k =>
      match (s.socket k).next with
      | some (.data _ v) =>
        if v.size ≤ x.size then
          some ((s.setSocket k (s.socket k).pop).setRank r
            (me.advance (.recv (.peer p q t) l x) rest (writeSpan me.mem x v)))
        else none
      | _ => none
    | none => some (s.setRank r { me with pc := .accepting })
  | .accepted k =>
    match (s.socket k).next with
    | some (.int n) =>
      some ((s.setSocket k (s.socket k).pop).setRank r { me with pc := .gotRank k n })
    | _ => none
  | .gotRank k n =>
    match (s.socket k).next with
    | some (.int m) =>
      some ((s.setSocket k (s.socket k).pop).setRank r
        { me with
          pc := if n = p ∧ m = t then .ready else .accepting
          peerRecvSockets := update me.peerRecvSockets (n, m) (some k) })
    | _ => none
  | _ => none

def sendRing (p q : ℕ) : Option State :=
  let me := s.rank r
  some ((s.setRing p q (s.ring p q ++ [(l, readSpan me.mem x)])).setRank r
    (me.advance (.send (.ring p q) l x) rest me.mem))

def recvRing (p q : ℕ) : Option State :=
  let me := s.rank r
  match s.ring p q with
  | (_, v) :: ms =>
    if v.size ≤ x.size then
      some ((s.setRing p q ms).setRank r
        (me.advance (.recv (.ring p q) l x) rest (writeSpan me.mem x v)))
    else none
  | [] => none

end Steps

inductive Event where
  | run (r : ℕ)
  | accept (r k : ℕ)

def step (s : State) : Event → Option State
  | .run r =>
    match (s.rank r).todo with
    | [] => none
    | .send (.peer p q t) l x :: rest => sendPeer s r rest l x p q t
    | .send (.ring p q) l x :: rest => sendRing s r rest l x p q
    | .recv (.peer p q t) l x :: rest => recvPeer s r rest l x p q t
    | .recv (.ring p q) l x :: rest => recvRing s r rest l x p q
    | .move x y :: rest =>
      let me := s.rank r
      some (s.setRank r (me.advance (.move x y) rest (writeSpan me.mem x (readSpan me.mem y))))
  | .accept r k =>
    if (s.rank r).pc = .accepting ∧ k < s.opened ∧ (s.socket k).target = r ∧
        (s.socket k).accepted = false then
      some ((s.setSocket k { s.socket k with accepted := true }).setRank r
        { s.rank r with pc := .accepted k })
    else none

def machine (S : Schedule) (mem : ℕ → Memory) : Machine State Event :=
  .ofStep (initial S mem) step

instance (S : Schedule) (mem : ℕ → Memory) (s : State) (e : Event) :
    Decidable ((machine S mem).enabled s e) :=
  inferInstanceAs (Decidable ((step s e).isSome = true))

structure Opening (s : State) (p k : ℕ) (header : List Frame) : Prop where
  lt : k < s.opened
  source : (s.socket k).source = p
  stream : (s.socket k).stream = header
  todo : ∃ p' t l x rest, (s.rank p).todo = .send (.peer p' (s.socket k).target t) l x :: rest ∧
    (s.rank p).peerSendSockets ((s.socket k).target, t) = none

structure Kept (s : State) (p q t k : ℕ) : Prop where
  lt : k < s.opened
  source : (s.socket k).source = p
  target : (s.socket k).target = q
  stream : ∃ ms : List (Label × Payload),
    (s.socket k).stream = .int p :: .int t :: ms.map fun m => .data m.1 m.2

structure Outgoing (s : State) (p : ℕ) : Prop where
  connected : ∀ {k}, (s.rank p).pc = .connected k → Opening s p k []
  sentRank : ∀ {k}, (s.rank p).pc = .sentRank k → Opening s p k [.int p]
  kept : ∀ {q t k}, (s.rank p).peerSendSockets (q, t) = some k → Kept s p q t k
  opener : ∀ {k}, k < s.opened → (s.socket k).source = p → (s.rank p).pc = .connected k ∨
    (s.rank p).pc = .sentRank k ∨
    ∃ t, (s.rank p).peerSendSockets ((s.socket k).target, t) = some k

namespace Pc

def opening : Pc → Pc
  | .connected k => .connected k
  | .sentRank k => .sentRank k
  | .ready | .accepting | .accepted _ | .gotRank _ _ => .ready

def waiting : Pc → Pc
  | .accepting => .accepting
  | .accepted k => .accepted k
  | .gotRank k n => .gotRank k n
  | .ready | .connected _ | .sentRank _ => .ready

variable {pc : Pc} {k n : ℕ}

theorem opening_eq_connected : pc.opening = .connected k ↔ pc = .connected k := by
  cases pc <;> simp [opening]

theorem opening_eq_sentRank : pc.opening = .sentRank k ↔ pc = .sentRank k := by
  cases pc <;> simp [opening]

theorem waiting_eq_accepted : pc.waiting = .accepted k ↔ pc = .accepted k := by
  cases pc <;> simp [waiting]

theorem waiting_eq_gotRank : pc.waiting = .gotRank k n ↔ pc = .gotRank k n := by
  cases pc <;> simp [waiting]

end Pc

structure SameSender (s s' : State) (p : ℕ) : Prop where
  pc : (s'.rank p).pc.opening = (s.rank p).pc.opening
  todo : (s.rank p).pc.opening = .ready ∨ (s'.rank p).todo = (s.rank p).todo
  sockets : (s'.rank p).peerSendSockets = (s.rank p).peerSendSockets
  opened : s.opened ≤ s'.opened
  ends : ∀ {k}, k < s.opened → (s.socket k).source = p →
    (s'.socket k).source = p ∧ (s'.socket k).target = (s.socket k).target ∧
      (s'.socket k).stream = (s.socket k).stream
  mine : ∀ {k}, k < s'.opened → (s'.socket k).source = p →
    k < s.opened ∧ (s.socket k).source = p

namespace Outgoing

variable {s s' : State} {p q k t : ℕ}

theorem initial (S : Schedule) (mem : ℕ → Memory) (p : ℕ) : Outgoing (initial S mem) p :=
  ⟨nofun, nofun, nofun, nofun⟩

theorem opening_congr (hsame : SameSender s s' p) {header : List Frame}
    (hpc : (s.rank p).pc.opening ≠ .ready) (h : Opening s p k header) : Opening s' p k header := by
  grind [Opening, SameSender]

theorem kept_congr (hsame : SameSender s s' p) (h : Kept s p q t k) : Kept s' p q t k := by
  grind [Kept, SameSender]

theorem congr (h : Outgoing s p) (hsame : SameSender s s' p) : Outgoing s' p where
  connected {k} hpc := by
    have hold := hsame.pc.symm.trans (Pc.opening_eq_connected.mpr hpc)
    exact opening_congr hsame (hold ▸ nofun) (h.connected (Pc.opening_eq_connected.mp hold))
  sentRank {k} hpc := by
    have hold := hsame.pc.symm.trans (Pc.opening_eq_sentRank.mpr hpc)
    exact opening_congr hsame (hold ▸ nofun) (h.sentRank (Pc.opening_eq_sentRank.mp hold))
  kept hk := kept_congr hsame (h.kept (hsame.sockets ▸ hk))
  opener {k} hk hsource := by
    grind [Outgoing, SameSender, Pc.opening_eq_connected, Pc.opening_eq_sentRank]

theorem header_rank (h : Outgoing s (s.socket k).source) (hk : k < s.opened) {f : Frame}
    (hf : (s.socket k).stream[0]? = some f) : f = .int (s.socket k).source := by
  rcases h.opener hk rfl with hpc | hpc | ⟨t, ht⟩
  · rw [(h.connected hpc).stream] at hf
    cases hf
  · rw [(h.sentRank hpc).stream] at hf
    exact (Option.some.inj hf).symm
  · obtain ⟨ms, hms⟩ := (h.kept ht).stream
    rw [hms] at hf
    exact (Option.some.inj hf).symm

theorem header_tag (h : Outgoing s (s.socket k).source) (hk : k < s.opened) {f : Frame}
    (hf : (s.socket k).stream[1]? = some f) : ∃ t, f = .int t ∧
      (s.rank (s.socket k).source).peerSendSockets ((s.socket k).target, t) = some k := by
  rcases h.opener hk rfl with hpc | hpc | ⟨t, ht⟩
  · rw [(h.connected hpc).stream] at hf
    cases hf
  · rw [(h.sentRank hpc).stream] at hf
    cases hf
  · obtain ⟨ms, hms⟩ := (h.kept ht).stream
    rw [hms] at hf
    exact ⟨t, (Option.some.inj hf).symm, ht⟩

end Outgoing

structure Accepted (s : State) (q k : ℕ) : Prop where
  lt : k < s.opened
  target : (s.socket k).target = q
  accepted : (s.socket k).accepted = true

structure Incoming (s : State) (q : ℕ) : Prop where
  accepted : ∀ {k}, (s.rank q).pc = .accepted k → Accepted s q k ∧ (s.socket k).read = 0
  gotRank : ∀ {k n}, (s.rank q).pc = .gotRank k n →
    Accepted s q k ∧ (s.socket k).read = 1 ∧ n = (s.socket k).source
  registered : ∀ {p t k}, (s.rank q).peerRecvSockets (p, t) = some k →
    Accepted s q k ∧ 2 ≤ (s.socket k).read ∧ (s.rank p).peerSendSockets (q, t) = some k
  waiting : (s.rank q).pc.waiting ≠ .ready → ∃ p q' t l x rest,
    (s.rank q).todo = .recv (.peer p q' t) l x :: rest ∧ (s.rank q).peerRecvSockets (p, t) = none
  reader : ∀ {k}, Accepted s q k → (s.rank q).pc = .accepted k ∨
    (s.rank q).pc = .gotRank k (s.socket k).source ∨
    ∃ t, (s.rank q).peerRecvSockets ((s.socket k).source, t) = some k
  read_le : ∀ {k}, k < s.opened → (s.socket k).target = q →
    (s.socket k).read ≤ (s.socket k).stream.length
  fresh : ∀ {k}, k < s.opened → (s.socket k).target = q → (s.socket k).accepted = false →
    (s.socket k).read = 0

structure SameReceiver (s s' : State) (q : ℕ) : Prop where
  pc : (s'.rank q).pc.waiting = (s.rank q).pc.waiting
  todo : (s.rank q).pc.waiting = .ready ∨ (s'.rank q).todo = (s.rank q).todo
  sockets : (s'.rank q).peerRecvSockets = (s.rank q).peerRecvSockets
  kept : ∀ {p t k}, (s.rank p).peerSendSockets (q, t) = some k →
    (s'.rank p).peerSendSockets (q, t) = some k
  opened : s.opened ≤ s'.opened
  ends : ∀ {k}, k < s.opened → (s.socket k).target = q →
    (s'.socket k).target = q ∧ (s'.socket k).source = (s.socket k).source ∧
      (s'.socket k).accepted = (s.socket k).accepted ∧
      (s'.socket k).read = (s.socket k).read ∧
      (s.socket k).stream.length ≤ (s'.socket k).stream.length
  mine : ∀ {k}, k < s'.opened → (s'.socket k).target = q →
    k < s.opened ∧ (s.socket k).target = q ∨
      (s'.socket k).accepted = false ∧ (s'.socket k).read = 0

namespace Incoming

variable {s s' : State} {q k : ℕ}

theorem initial (S : Schedule) (mem : ℕ → Memory) (q : ℕ) : Incoming (initial S mem) q :=
  ⟨nofun, nofun, nofun, fun h => absurd rfl h, fun h => absurd h.lt (Nat.not_lt_zero _),
    fun h => absurd h (Nat.not_lt_zero _), fun h => absurd h (Nat.not_lt_zero _)⟩

theorem accepted_congr (hsame : SameReceiver s s' q) (h : Accepted s q k) : Accepted s' q k :=
  have hends := hsame.ends h.lt h.target
  ⟨h.lt.trans_le hsame.opened, hends.1, hends.2.2.1.trans h.accepted⟩

theorem congr (h : Incoming s q) (hsame : SameReceiver s s' q) : Incoming s' q where
  accepted {k} hpc := by
    have hold := hsame.pc.symm.trans (Pc.waiting_eq_accepted.mpr hpc)
    obtain ⟨ha, hread⟩ := h.accepted (Pc.waiting_eq_accepted.mp hold)
    exact ⟨accepted_congr hsame ha, (hsame.ends ha.lt ha.target).2.2.2.1.trans hread⟩
  gotRank {k n} hpc := by
    have hold := hsame.pc.symm.trans (Pc.waiting_eq_gotRank.mpr hpc)
    obtain ⟨ha, hread, hn⟩ := h.gotRank (Pc.waiting_eq_gotRank.mp hold)
    grind [Accepted, SameReceiver]
  registered {p t k} hk := by
    grind [Incoming, Accepted, SameReceiver]
  waiting hpc := by
    grind [Incoming, SameReceiver]
  reader {k} ha := by
    grind [Incoming, Accepted, SameReceiver, Pc.waiting_eq_accepted, Pc.waiting_eq_gotRank]
  read_le {k} hk htarget := by
    grind [Incoming, SameReceiver]
  fresh {k} hk htarget hnot := by
    grind [Incoming, SameReceiver]

end Incoming

section Frames

variable {s s' : State} {r p q j : ℕ} {me : Rank}

section

variable (hrank : s'.rank = update s.rank r me)
include hrank

theorem SameSender.of_receive (hopened : s'.opened = s.opened)
    (hsocket : ∀ k, (s'.socket k).source = (s.socket k).source ∧
      (s'.socket k).target = (s.socket k).target ∧ (s'.socket k).stream = (s.socket k).stream)
    (hme : me.peerSendSockets = (s.rank r).peerSendSockets) (hold : (s.rank r).pc.opening = .ready)
    (hnew : me.pc.opening = .ready) (p : ℕ) : SameSender s s' p := by
  have hrankp : (s'.rank p).pc.opening = (s.rank p).pc.opening ∧
      ((s.rank p).pc.opening = .ready ∨ (s'.rank p).todo = (s.rank p).todo) ∧
      (s'.rank p).peerSendSockets = (s.rank p).peerSendSockets := by
    rw [hrank]
    grind
  refine ⟨hrankp.1, hrankp.2.1, hrankp.2.2, hopened.ge, fun {k} _ hp => ?_, fun {k} hk hp => ?_⟩
  all_goals grind

theorem SameSender.of_ne (hp : p ≠ r) (hopened : s.opened ≤ s'.opened)
    (hlt : ∀ {k}, k < s'.opened → k ≠ j → k < s.opened)
    (hsocket : ∀ {k}, k ≠ j → s'.socket k = s.socket k)
    (hold : j < s.opened → (s.socket j).source = r) (hnew : (s'.socket j).source = r) :
    SameSender s s' p := by
  have hrankp : s'.rank p = s.rank p := by rw [hrank, update_of_ne hp]
  refine ⟨by rw [hrankp], .inr (by rw [hrankp]), by rw [hrankp], hopened, fun {k} hk hs => ?_,
    fun {k} hk hs => ?_⟩
  all_goals grind

theorem SameReceiver.of_send (hopened : s.opened ≤ s'.opened)
    (hsocket : ∀ {k}, k < s.opened → (s'.socket k).target = (s.socket k).target ∧
      (s'.socket k).source = (s.socket k).source ∧ (s'.socket k).accepted = (s.socket k).accepted ∧
        (s'.socket k).read = (s.socket k).read ∧
          (s.socket k).stream.length ≤ (s'.socket k).stream.length)
    (hfresh : ∀ {k}, k < s'.opened → k < s.opened ∨ (s'.socket k).accepted = false ∧
      (s'.socket k).read = 0)
    (hkept : ∀ {i k}, (s.rank r).peerSendSockets i = some k → me.peerSendSockets i = some k)
    (hme : me.peerRecvSockets = (s.rank r).peerRecvSockets) (hold : (s.rank r).pc.waiting = .ready)
    (hnew : me.pc.waiting = .ready) (q : ℕ) : SameReceiver s s' q := by
  have hrankq : (s'.rank q).pc.waiting = (s.rank q).pc.waiting ∧
      ((s.rank q).pc.waiting = .ready ∨ (s'.rank q).todo = (s.rank q).todo) ∧
      (s'.rank q).peerRecvSockets = (s.rank q).peerRecvSockets := by
    rw [hrank]
    grind
  refine ⟨hrankq.1, hrankq.2.1, hrankq.2.2, fun {p t k} hk => ?_, hopened, fun {k} hk ht => ?_,
    fun {k} hk ht => ?_⟩
  · rw [hrank]
    grind
  all_goals grind

theorem SameReceiver.of_ne (hq : q ≠ r) (hopened : s'.opened = s.opened)
    (hsocket : ∀ {k}, k ≠ j → s'.socket k = s.socket k) (hold : (s.socket j).target = r)
    (hnew : (s'.socket j).target = r) (hme : me.peerSendSockets = (s.rank r).peerSendSockets) :
    SameReceiver s s' q := by
  have hrankq : s'.rank q = s.rank q := by rw [hrank, update_of_ne hq]
  refine ⟨by rw [hrankq], .inr (by rw [hrankq]), by rw [hrankq], fun {p t k} hk => ?_,
    hopened.ge, fun {k} hk ht => ?_, fun {k} hk ht => ?_⟩
  · rw [hrank]
    grind
  all_goals grind

end

end Frames

structure Inv (s : State) : Prop where
  out : ∀ p, Outgoing s p
  inc : ∀ q, Incoming s q

section Sockets

variable (s : State) (k r : ℕ) (me : Rank) (f : Frame) (k' : ℕ)

theorem field_update {α : Type*} (g : Socket → α) {s : State} {k : ℕ} {y : Socket}
    (h : g y = g (s.socket k)) (k' : ℕ) : g (update s.socket k y k') = g (s.socket k') := by
  by_cases hk : k' = k
  · rw [hk, update_self, h]
  · rw [update_of_ne hk]

theorem push_source : (((s.setSocket k ((s.socket k).push f)).setRank r me).socket k').source =
    (s.socket k').source :=
  field_update Socket.source (y := (s.socket k).push f) rfl k'

theorem push_target : (((s.setSocket k ((s.socket k).push f)).setRank r me).socket k').target =
    (s.socket k').target :=
  field_update Socket.target (y := (s.socket k).push f) rfl k'

theorem push_stream : (((s.setSocket k ((s.socket k).push f)).setRank r me).socket k).stream =
    (s.socket k).stream ++ [f] := by
  change (update s.socket k ((s.socket k).push f) k).stream = _
  rw [update_self]
  rfl

theorem push_length : (s.socket k').stream.length ≤
    (((s.setSocket k ((s.socket k).push f)).setRank r me).socket k').stream.length := by
  by_cases hk : k' = k
  · rw [hk, push_stream, length_append]
    exact Nat.le_add_right _ _
  · exact (congrArg (·.stream.length) (update_of_ne hk _ s.socket)).ge

theorem setRank_self : (s.setRank r me).rank r = me := update_self _ _ _

end Sockets

section Sends

variable {s : State} {r q t k : ℕ} {f : Frame} {me : Rank} {l : Label} {v : Payload}

theorem Inv.push (h : Inv s) (hsource : (s.socket k).source = r)
    (hkept : ∀ {i k}, (s.rank r).peerSendSockets i = some k → me.peerSendSockets i = some k)
    (hme : me.peerRecvSockets = (s.rank r).peerRecvSockets)
    (hold : (s.rank r).pc.waiting = .ready) (hnew : me.pc.waiting = .ready)
    (hout : Outgoing ((s.setSocket k ((s.socket k).push f)).setRank r me) r) :
    Inv ((s.setSocket k ((s.socket k).push f)).setRank r me) where
  out p := by
    by_cases hp : p = r
    · exact hp ▸ hout
    · refine (h.out p).congr (SameSender.of_ne (j := k) rfl hp (Nat.le_refl _) (fun hk _ => hk)
        (fun hne => update_of_ne hne _ _) (fun _ => hsource) ?_)
      exact (push_source ..).trans hsource
  inc q := by
    have hsocket : ∀ {k'}, k' < s.opened → _ := fun {k'} _ =>
      And.intro (push_target s k r me f k') <| And.intro (push_source s k r me f k') <|
        And.intro (field_update Socket.accepted (y := (s.socket k).push f) rfl k') <|
          And.intro (field_update Socket.read (y := (s.socket k).push f) rfl k') <|
            push_length s k r me f k'
    refine (h.inc q).congr (SameReceiver.of_send rfl ?_ hsocket .inl hkept hme hold hnew q)
    exact Nat.le_refl s.opened

theorem Kept.push_of_ne (h : Kept s r q t k) {k' : ℕ} (hk : k ≠ k') :
    Kept ((s.setSocket k' ((s.socket k').push f)).setRank r me) r q t k := by
  have hsocket : ((s.setSocket k' ((s.socket k').push f)).setRank r me).socket k = s.socket k :=
    update_of_ne hk _ _
  exact ⟨h.lt, hsocket ▸ h.source, hsocket ▸ h.target, hsocket ▸ h.stream⟩

theorem Kept.data (h : Kept s r q t k) {k' : ℕ} :
    Kept ((s.setSocket k' ((s.socket k').push (.data l v))).setRank r me) r q t k := by
  by_cases hk : k = k'
  · subst hk
    obtain ⟨ms, hms⟩ := h.stream
    refine ⟨h.lt, (push_source ..).trans h.source, (push_target ..).trans h.target,
      ms ++ [(l, v)], ?_⟩
    rw [push_stream, hms, map_append]
    rfl
  · exact h.push_of_ne hk

theorem Inv.data (h : Inv s) (hpc : (s.rank r).pc = .ready)
    (hk : (s.rank r).peerSendSockets (q, t) = some k) (a : Op) (rest : List Op) (m : Memory) :
    Inv ((s.setSocket k ((s.socket k).push (.data l v))).setRank r
      ((s.rank r).advance a rest m)) := by
  have hkept := (h.out r).kept hk
  have hwait : (s.rank r).pc.waiting = .ready := by rw [hpc, Pc.waiting]
  refine h.push hkept.source id rfl hwait hwait ⟨fun hpc' => ?_, fun hpc' => ?_,
    fun {q' t' k'} hk' => ?_, fun {k'} hk' hs => ?_⟩
  · rw [setRank_self, Rank.advance, hpc] at hpc'
    cases hpc'
  · rw [setRank_self, Rank.advance, hpc] at hpc'
    cases hpc'
  · rw [setRank_self] at hk'
    exact ((h.out r).kept hk').data
  · rw [push_source] at hs
    rw [setRank_self, push_target]
    exact (h.out r).opener hk' hs

theorem Inv.sendRank (h : Inv s) (hpc : (s.rank r).pc = .connected k) :
    Inv ((s.setSocket k ((s.socket k).push (.int r))).setRank r
      { s.rank r with pc := .sentRank k }) := by
  have hopen := (h.out r).connected hpc
  have hwait : (s.rank r).pc.waiting = .ready := by rw [hpc, Pc.waiting]
  refine h.push hopen.source id rfl hwait rfl ⟨fun hpc' => ?_, fun {k'} hpc' => ?_,
    fun {q' t' k'} hk' => ?_, fun {k'} hk' hs => ?_⟩
  · rw [setRank_self] at hpc'
    cases hpc'
  · rw [setRank_self] at hpc'
    obtain rfl : k = k' := Pc.sentRank.inj hpc'
    refine ⟨hopen.lt, (push_source ..).trans hopen.source, ?_, ?_⟩
    · rw [push_stream, hopen.stream]
      rfl
    · rw [setRank_self, push_target]
      exact hopen.todo
  · rw [setRank_self] at hk'
    have hkept := (h.out r).kept hk'
    grind [Opening, Kept, Kept.push_of_ne]
  · rw [push_source] at hs
    rw [setRank_self, push_target]
    rcases (h.out r).opener hk' hs with hc | hc | ht
    all_goals grind

theorem Inv.sendTag (h : Inv s) (hpc : (s.rank r).pc = .sentRank k) {p : ℕ} {x : Span}
    {rest : List Op} (htodo : (s.rank r).todo = .send (.peer p q t) l x :: rest) :
    Inv ((s.setSocket k ((s.socket k).push (.int t))).setRank r { s.rank r with
        pc := .ready
        peerSendSockets := update (s.rank r).peerSendSockets (q, t) (some k) }) := by
  have hopen := (h.out r).sentRank hpc
  have hwait : (s.rank r).pc.waiting = .ready := by rw [hpc, Pc.waiting]
  obtain ⟨p', t', l', x', rest', htodo', hnone⟩ := hopen.todo
  rw [htodo] at htodo'
  cases htodo'
  have hnew : ∀ {i k'}, (s.rank r).peerSendSockets i = some k' → i ≠ ((s.socket k).target, t) :=
    fun {i k'} hi heq => by
      rw [heq, hnone] at hi
      cases hi
  refine h.push hopen.source (fun {i k'} hi => ?_) rfl hwait rfl ⟨fun hpc' => ?_,
    fun {k'} hpc' => ?_, fun {q' t' k'} hk' => ?_, fun {k'} hk' hs => ?_⟩
  · exact (update_of_ne (hnew hi) _ _).trans hi
  · rw [setRank_self] at hpc'
    cases hpc'
  · rw [setRank_self] at hpc'
    cases hpc'
  · rw [setRank_self] at hk'
    change update (s.rank r).peerSendSockets ((s.socket k).target, t) (some k) (q', t') =
      some k' at hk'
    by_cases hi : (q', t') = ((s.socket k).target, t)
    · cases hi
      rw [update_self] at hk'
      cases hk'
      refine ⟨hopen.lt, (push_source ..).trans hopen.source, push_target .., [], ?_⟩
      rw [push_stream, hopen.stream]
      rfl
    · rw [update_of_ne hi] at hk'
      have hkept := (h.out r).kept hk'
      grind [Opening, Kept, Kept.push_of_ne]
  · rw [push_source] at hs
    rw [setRank_self, push_target]
    refine .inr (.inr ?_)
    rcases (h.out r).opener hk' hs with hc | hc | ⟨t', ht⟩
    all_goals grind

theorem Inv.connect (h : Inv s) (hpc : (s.rank r).pc = .ready) {p : ℕ} {x : Span}
    {rest : List Op} (htodo : (s.rank r).todo = .send (.peer p q t) l x :: rest)
    (hnone : (s.rank r).peerSendSockets (q, t) = none) : Inv (BootstrapSockets.connect s r q) := by
  have hwait : (s.rank r).pc.waiting = .ready := by rw [hpc, Pc.waiting]
  have hsocket : ∀ {k}, k ≠ s.opened →
      (BootstrapSockets.connect s r q).socket k = s.socket k :=
    fun hk => update_of_ne hk _ _
  have hnew : (BootstrapSockets.connect s r q).socket s.opened = ⟨r, q, [], 0, false⟩ :=
    update_self _ _ _
  have hranks : (BootstrapSockets.connect s r q).rank =
      update s.rank r { s.rank r with pc := .connected s.opened } := rfl
  have hrank : (BootstrapSockets.connect s r q).rank r =
      { s.rank r with pc := .connected s.opened } := update_self _ _ _
  have hlt : ∀ {k}, k < s.opened + 1 → k ≠ s.opened → k < s.opened := fun hk hne => by omega
  refine ⟨fun p => ?_, fun q' => (h.inc q').congr ?_⟩
  · by_cases hp : p = r
    · subst hp
      refine ⟨fun {k} hpc' => ?_, fun hpc' => ?_, fun {q' t' k} hk => ?_, fun {k} hk hs => ?_⟩
      · rw [hrank] at hpc'
        obtain rfl : s.opened = k := Pc.connected.inj hpc'
        refine ⟨Nat.lt_succ_self _, by rw [hnew], by rw [hnew], ?_⟩
        rw [hnew, hrank]
        exact ⟨_, t, l, x, rest, htodo, hnone⟩
      · rw [hrank] at hpc'
        cases hpc'
      · rw [hrank] at hk
        have hkept := (h.out p).kept hk
        grind [Kept, connect]
      · rw [hrank]
        by_cases hk' : k = s.opened
        · exact .inl (hk' ▸ rfl)
        · rw [hsocket hk'] at hs ⊢
          rcases (h.out p).opener (hlt hk hk') hs with hc | hc | ht
          all_goals grind
    · exact (h.out p).congr (SameSender.of_ne (j := s.opened) rfl hp (Nat.le_succ _) hlt hsocket
        (fun hk => absurd hk (Nat.lt_irrefl _)) (by rw [hnew]))
  · refine SameReceiver.of_send hranks (Nat.le_succ _) (fun {k} hk => ?_) (fun {k} hk => ?_) id
      rfl hwait rfl q'
    all_goals grind [connect]

end Sends

section Receives

variable {s : State} {r p q t k : ℕ} {me : Rank} {l : Label} {x : Span} {rest : List Op}
  {y : Socket}

theorem Inv.receive (h : Inv s) (htarget : (s.socket k).target = r)
    (hy : y.source = (s.socket k).source ∧ y.target = (s.socket k).target ∧
      y.stream = (s.socket k).stream) (hme : me.peerSendSockets = (s.rank r).peerSendSockets)
    (hold : (s.rank r).pc.opening = .ready) (hnew : me.pc.opening = .ready)
    (hinc : Incoming ((s.setSocket k y).setRank r me) r) :
    Inv ((s.setSocket k y).setRank r me) where
  out p := by
    refine (h.out p).congr (SameSender.of_receive rfl ?_ (fun k' => ?_) hme hold hnew p)
    · exact Eq.refl s.opened
    · exact ⟨field_update Socket.source hy.1 k', field_update Socket.target hy.2.1 k',
        field_update Socket.stream hy.2.2 k'⟩
  inc q := by
    by_cases hq : q = r
    · exact hq ▸ hinc
    · refine (h.inc q).congr (SameReceiver.of_ne (j := k) rfl hq rfl
        (fun hne => update_of_ne hne _ _) htarget ?_ hme)
      exact (field_update Socket.target hy.2.1 k).trans htarget

theorem Inv.advance (h : Inv s) {s' : State} (hpc : (s.rank r).pc = .ready) (a : Op)
    (m : Memory) (hrank : s'.rank = update s.rank r ((s.rank r).advance a rest m))
    (hopened : s'.opened = s.opened) (hsocket : s'.socket = s.socket) : Inv s' where
  out p := by
    refine (h.out p).congr (SameSender.of_receive hrank hopened (fun k => ?_) rfl ?_ ?_ p)
    all_goals grind [Rank.advance, Pc.opening]
  inc q := by
    refine (h.inc q).congr (SameReceiver.of_send hrank hopened.ge (fun {k} _ => ?_)
      (fun hk => .inl (hopened ▸ hk)) id rfl ?_ ?_ q)
    all_goals grind [Rank.advance, Pc.waiting]

theorem Incoming.change (h : Incoming s r) (hk : k < s.opened) (htarget : (s.socket k).target = r)
    (hy : y.source = (s.socket k).source ∧ y.target = (s.socket k).target ∧
      y.stream = (s.socket k).stream)
    (hacc : y.accepted = true) (hread : (s.socket k).read ≤ y.read)
    (hlen : y.read ≤ (s.socket k).stream.length)
    (hold : ∀ {k'}, (s.rank r).pc = .accepted k' ∨ (∃ n, (s.rank r).pc = .gotRank k' n) → k' = k)
    (hA : ∀ {k'}, me.pc = .accepted k' → k' = k ∧ y.read = 0)
    (hG : ∀ {k' n}, me.pc = .gotRank k' n → k' = k ∧ y.read = 1 ∧ n = (s.socket k).source)
    (hreg : ∀ {p t k'}, me.peerRecvSockets (p, t) = some k' →
      (s.rank r).peerRecvSockets (p, t) = some k' ∨
        k' = k ∧ 2 ≤ y.read ∧ (s.rank p).peerSendSockets (r, t) = some k)
    (hkeep : ∀ {i k'}, (s.rank r).peerRecvSockets i = some k' → me.peerRecvSockets i = some k')
    (hwait : me.pc.waiting ≠ .ready → ∃ p q t l x rest,
      me.todo = .recv (.peer p q t) l x :: rest ∧ me.peerRecvSockets (p, t) = none)
    (hself : me.pc = .accepted k ∨ me.pc = .gotRank k (s.socket k).source ∨
      ∃ t, me.peerRecvSockets ((s.socket k).source, t) = some k)
    (hsend : me.peerSendSockets = (s.rank r).peerSendSockets) :
    Incoming ((s.setSocket k y).setRank r me) r := by
  have hsocket : ((s.setSocket k y).setRank r me).socket k = y := update_self _ _ _
  have hother : ∀ {k'}, k' ≠ k → ((s.setSocket k y).setRank r me).socket k' = s.socket k' :=
    fun hne => update_of_ne hne _ _
  have hyes : Accepted ((s.setSocket k y).setRank r me) r k :=
    ⟨hk, (congrArg Socket.target hsocket).trans (hy.2.1.trans htarget),
      (congrArg Socket.accepted hsocket).trans hacc⟩
  have hpeers : ∀ p, (((s.setSocket k y).setRank r me).rank p).peerSendSockets =
      (s.rank p).peerSendSockets := fun p => by
    change (update s.rank r me p).peerSendSockets = _
    grind
  refine ⟨fun {k'} hpc => ?_, fun {k' n} hpc => ?_, fun {p t k'} hi => ?_, fun hpc => ?_,
    fun {k'} ha => ?_, fun {k'} hk' ht => ?_, fun {k'} hk' ht hnot => ?_⟩
  · grind [setRank_self]
  · grind [setRank_self]
  · rw [setRank_self] at hi
    rw [hpeers]
    by_cases hkk : k' = k
    · subst hkk
      rw [hsocket]
      rcases hreg hi with hi | ⟨-, htwo, hkept⟩
      · obtain ⟨-, htwo, hkept⟩ := h.registered hi
        exact ⟨hyes, htwo.trans hread, hkept⟩
      · exact ⟨hyes, htwo, hkept⟩
    · obtain ⟨ha, htwo, hkept⟩ := h.registered ((hreg hi).resolve_right fun hc => hkk hc.1)
      refine ⟨⟨ha.lt, ?_, ?_⟩, ?_, hkept⟩ <;> rw [hother hkk]
      · exact ha.target
      · exact ha.accepted
      · exact htwo
  · rw [setRank_self] at hpc ⊢
    exact hwait hpc
  · rw [setRank_self]
    by_cases hkk : k' = k
    · subst hkk
      rw [hsocket, hy.1]
      exact hself
    · have hsock := hother hkk
      have hbefore : Accepted s r k' := ⟨ha.lt, hsock ▸ ha.target, hsock ▸ ha.accepted⟩
      rw [hsock]
      rcases h.reader hbefore with hpc | hpc | ⟨t, ht⟩
      · exact absurd (hold (.inl hpc)) hkk
      · exact absurd (hold (.inr ⟨_, hpc⟩)) hkk
      · exact .inr (.inr ⟨t, hkeep ht⟩)
  · by_cases hkk : k' = k
    · subst hkk
      rw [hsocket, hy.2.2]
      exact hlen
    · rw [hother hkk] at ht ⊢
      exact h.read_le hk' ht
  · by_cases hkk : k' = k
    · subst hkk
      rw [hsocket, hacc] at hnot
      cases hnot
    · rw [hother hkk] at ht hnot ⊢
      exact h.fresh hk' ht hnot

theorem Inv.wait (h : Inv s) (hpc : (s.rank r).pc = .ready)
    (htodo : (s.rank r).todo = .recv (.peer p q t) l x :: rest)
    (hnone : (s.rank r).peerRecvSockets (p, t) = none) :
    Inv (s.setRank r { s.rank r with pc := .accepting }) := by
  have hopen : (s.rank r).pc.opening = .ready := by rw [hpc, Pc.opening]
  have hranks : (s.setRank r { s.rank r with pc := .accepting }).rank =
      update s.rank r { s.rank r with pc := .accepting } := rfl
  have hpeers : ∀ p, ((s.setRank r { s.rank r with pc := .accepting }).rank p).peerSendSockets =
      (s.rank p).peerSendSockets := fun p => by
    rw [hranks]
    by_cases hp : p = r
    · rw [hp, update_self]
    · rw [update_of_ne hp]
  refine ⟨fun p => (h.out p).congr
    (SameSender.of_receive hranks rfl (fun _ => ⟨rfl, rfl, rfl⟩) rfl hopen rfl p), fun q' => ?_⟩
  by_cases hq : q' = r
  · subst hq
    have hi := h.inc q'
    refine ⟨fun hpc' => ?_, fun hpc' => ?_, fun {p t k} hk => ?_, fun _ => ?_, fun {k} ha => ?_,
      hi.read_le, hi.fresh⟩
    · rw [setRank_self] at hpc'
      cases hpc'
    · rw [setRank_self] at hpc'
      cases hpc'
    · grind [Incoming, Accepted, State.setRank, setRank_self]
    · rw [setRank_self]
      exact ⟨p, q, t, l, x, rest, htodo, hnone⟩
    · rw [setRank_self]
      rcases hi.reader ⟨ha.lt, ha.target, ha.accepted⟩ with hc | hc | ht
      all_goals grind [State.setRank]
  · have hrankq : (s.setRank r { s.rank r with pc := .accepting }).rank q' = s.rank q' :=
      update_of_ne hq _ _
    refine (h.inc q').congr ⟨by rw [hrankq], .inr (by rw [hrankq]), by rw [hrankq],
      fun {p t k} hk => by rw [hpeers, hk], Nat.le_refl _,
      fun _ ht => ⟨ht, rfl, rfl, rfl, Nat.le_refl _⟩, fun hk ht => .inl ⟨hk, ht⟩⟩

theorem Inv.accept (h : Inv s) (hpc : (s.rank r).pc = .accepting) (hk : k < s.opened)
    (htarget : (s.socket k).target = r) (hnot : (s.socket k).accepted = false) :
    Inv ((s.setSocket k { s.socket k with accepted := true }).setRank r
      { s.rank r with pc := .accepted k }) := by
  have hi := h.inc r
  have hzero := hi.fresh hk htarget hnot
  have hwaits : (s.rank r).pc.waiting ≠ .ready := by
    rw [hpc]
    nofun
  refine h.receive htarget ⟨rfl, rfl, rfl⟩ rfl (by rw [hpc, Pc.opening]) rfl ?_
  refine hi.change hk htarget ⟨rfl, rfl, rfl⟩ rfl (Nat.le_refl _) (hi.read_le hk htarget) ?_
    (fun hc => ⟨(Pc.accepted.inj hc).symm, hzero⟩) nofun .inl id (fun _ => hi.waiting hwaits)
    (.inl rfl) rfl
  rw [hpc]
  rintro k' (hc | ⟨n, hc⟩) <;> cases hc

theorem read_lt {f : Frame} (hf : (s.socket k).next = some f) :
    (s.socket k).read < (s.socket k).stream.length :=
  (List.getElem?_eq_some_iff.mp hf).1

theorem Inv.recvRank (h : Inv s) (hpc : (s.rank r).pc = .accepted k) {n : ℕ}
    (hf : (s.socket k).next = some (.int n)) :
    Inv ((s.setSocket k (s.socket k).pop).setRank r { s.rank r with pc := .gotRank k n }) := by
  have hi := h.inc r
  obtain ⟨ha, hzero⟩ := hi.accepted hpc
  have hn : n = (s.socket k).source := by
    grind [Socket.next, Accepted, Inv, Outgoing.header_rank]
  have hwaits : (s.rank r).pc.waiting ≠ .ready := by
    rw [hpc]
    nofun
  refine h.receive ha.target ⟨rfl, rfl, rfl⟩ rfl (by rw [hpc, Pc.opening]) rfl ?_
  refine hi.change ha.lt ha.target ⟨rfl, rfl, rfl⟩ ha.accepted (Nat.le_succ _) (read_lt hf) ?_
    nofun (fun hc => ?_) .inl id (fun _ => hi.waiting hwaits) (.inr (.inl ?_)) rfl
  all_goals grind [Socket.pop]

theorem Inv.recvTag (h : Inv s) {n m : ℕ} (hpc : (s.rank r).pc = .gotRank k n)
    (htodo : (s.rank r).todo = .recv (.peer p q t) l x :: rest)
    (hf : (s.socket k).next = some (.int m)) : Inv ((s.setSocket k (s.socket k).pop).setRank r
      { s.rank r with
        pc := if n = p ∧ m = t then .ready else .accepting
        peerRecvSockets := update (s.rank r).peerRecvSockets (n, m) (some k) }) := by
  have hi := h.inc r
  obtain ⟨ha, hone, hn⟩ := hi.gotRank hpc
  have hkept : (s.rank n).peerSendSockets (r, m) = some k := by
    grind [Socket.next, Accepted, Inv, Outgoing.header_tag]
  have hwaits : (s.rank r).pc.waiting ≠ .ready := by
    rw [hpc]
    nofun
  have hpc' : ∀ pc : Pc, pc = (if n = p ∧ m = t then .ready else .accepting) →
      pc = .ready ∨ pc = .accepting := by
    rintro pc rfl
    split
    · exact .inl rfl
    · exact .inr rfl
  refine h.receive ha.target ⟨rfl, rfl, rfl⟩ rfl (by rw [hpc, Pc.opening]) ?_ ?_
  · grind [Pc.opening]
  refine hi.change ha.lt ha.target ⟨rfl, rfl, rfl⟩ ha.accepted (Nat.le_succ _) (read_lt hf) ?_
    (fun {k'} hc => ?_) (fun {k' n'} hc => ?_) (fun {p' t' k'} hreg => ?_) (fun {i k'} hold => ?_)
    (fun hw => ?_) (.inr (.inr ⟨m, ?_⟩)) rfl
  · rw [hpc]
    rintro k' (hc | ⟨n, hc⟩)
    · cases hc
    · exact (Pc.gotRank.inj hc).1.symm
  · rcases hpc' _ rfl with hr | hr <;> rw [hr] at hc <;> cases hc
  · rcases hpc' _ rfl with hr | hr <;> rw [hr] at hc <;> cases hc
  · change update (s.rank r).peerRecvSockets (n, m) (some k) (p', t') = some k' at hreg
    by_cases heq : (p', t') = (n, m)
    · cases heq
      rw [update_self] at hreg
      cases hreg
      exact .inr ⟨rfl, by rw [Socket.pop, hone], hkept⟩
    · rw [update_of_ne heq] at hreg
      exact .inl hreg
  · -- a socket registered under the same peer and tag is the one the peer keeps, so this one
    change update (s.rank r).peerRecvSockets (n, m) (some k) i = some k'
    by_cases heq : i = (n, m)
    · subst heq
      rw [update_self, ← hkept]
      exact (hi.registered hold).2.2
    · rw [update_of_ne heq]
      exact hold
  · obtain ⟨p', q', t', l', x', rest', htodo', hnone⟩ := hi.waiting hwaits
    rw [htodo] at htodo'
    cases htodo'
    have hne : (p, t) ≠ (n, m) := fun heq => by
      cases heq
      rw [if_pos ⟨rfl, rfl⟩] at hw
      exact hw rfl
    exact ⟨p, q, t, l, x, rest, htodo, (update_of_ne hne _ _).trans hnone⟩
  · change update (s.rank r).peerRecvSockets (n, m) (some k) ((s.socket k).source, m) = _
    rw [← hn, update_self]

theorem Inv.pop (h : Inv s) (hpc : (s.rank r).pc = .ready)
    (hk : (s.rank r).peerRecvSockets (p, t) = some k) {f : Frame}
    (hf : (s.socket k).next = some f) (a : Op) (m : Memory) :
    Inv ((s.setSocket k (s.socket k).pop).setRank r ((s.rank r).advance a rest m)) := by
  have hi := h.inc r
  obtain ⟨ha, htwo, hkept⟩ := hi.registered hk
  have hsource := ((h.out p).kept hkept).source
  refine h.receive ha.target ⟨rfl, rfl, rfl⟩ rfl (by rw [hpc, Pc.opening]) ?_ ?_
  · rw [Rank.advance, hpc, Pc.opening]
  refine hi.change ha.lt ha.target ⟨rfl, rfl, rfl⟩ ha.accepted (Nat.le_succ _) (read_lt hf) ?_
    (fun hc => ?_) (fun hc => ?_) .inl id (fun hw => ?_) (.inr (.inr ⟨t, hsource ▸ hk⟩)) rfl
  all_goals grind [Rank.advance, Pc.waiting]

end Receives

variable {ms : List (Label × Payload)}

section Fifo

def messages : List Frame → List (Label × Payload)
  | [] => []
  | .int _ :: fs => messages fs
  | .data l v :: fs => (l, v) :: messages fs

def Socket.pending (x : Socket) : List (Label × Payload) := messages (x.stream.drop x.read)

def State.queue (s : State) : Link → List (Label × Payload)
  | .peer p q t => ((s.rank p).peerSendSockets (q, t)).elim [] fun k => (s.socket k).pending
  | .ring p q => s.ring p q

def State.fifo (s : State) : FifoPrograms.State ℕ Link Label Span Payload Memory where
  done r := (s.rank r).done
  todo r := (s.rank r).todo
  queue := s.queue
  mem r := (s.rank r).mem

variable {s s' : State} {r k : ℕ} {me : Rank} {f : Frame} {y : Socket}

theorem messages_append (fs gs : List Frame) :
    messages (fs ++ gs) = messages fs ++ messages gs := by
  induction fs with
  | nil => rfl
  | cons f fs ih => cases f <;> simp only [cons_append, messages, ih]

theorem Socket.pending_push {x : Socket} (h : x.read ≤ x.stream.length) :
    (x.push f).pending = x.pending ++ messages [f] := by
  rw [pending, pending, push, drop_append_of_le_length h, messages_append]

theorem Socket.pending_next {x : Socket} (h : x.next = some f) :
    x.pending = messages [f] ++ x.pop.pending := by
  obtain ⟨hlt, hf⟩ := List.getElem?_eq_some_iff.mp h
  rw [pending, drop_eq_getElem_cons hlt, hf, ← singleton_append, messages_append]
  rfl

theorem fifo_same (hrank : s'.rank = update s.rank r me)
    (hdone : me.done = (s.rank r).done) (htodo : me.todo = (s.rank r).todo)
    (hmem : me.mem = (s.rank r).mem) (hqueue : s'.queue = s.queue) : s'.fifo = s.fifo := by
  have hfield : ∀ {α : Type} (g : Rank → α), g me = g (s.rank r) →
      (fun p => g (s'.rank p)) = fun p => g (s.rank p) := fun g hg => funext fun p => by
    rw [hrank]
    grind
  exact FifoPrograms.State.ext (hfield Rank.done hdone) (hfield Rank.todo htodo) hqueue
    (hfield Rank.mem hmem)

theorem fifo_advance {a : Op} {rest : List Op} {m : Memory}
    (hrank : s'.rank = update s.rank r ((s.rank r).advance a rest m)) :
    s'.fifo = { (s.fifo.setMem r m).advance r a rest with queue := s'.queue } := by
  have hfield : ∀ {α : Type} (g : Rank → α), (fun p => g (s'.rank p)) =
      update (fun p => g (s.rank p)) r (g ((s.rank r).advance a rest m)) :=
    fun g => funext fun p => by
      rw [hrank]
      exact apply_update (fun _ => g) s.rank r _ p
  exact FifoPrograms.State.ext (hfield Rank.done) (hfield Rank.todo) rfl (hfield Rank.mem)

theorem queue_ring (hrank : ∀ p, (s'.rank p).peerSendSockets = (s.rank p).peerSendSockets)
    (hsocket : s'.socket = s.socket) {p q : ℕ}
    (hring : s'.ring = update s.ring p (update (s.ring p) q ms)) :
    s'.queue = update s.queue (.ring p q) ms := by
  funext c
  cases c with
  | peer p' q' t =>
    grind [State.queue]
  | ring p' q' =>
    rw [State.queue, hring]
    by_cases hp : p' = p
    · subst hp
      rw [update_self]
      grind [State.queue]
    · rw [update_of_ne hp, update_of_ne fun h => hp (Link.ring.inj h).1]
      rfl

theorem peerSendSockets_update (hrank : s'.rank = update s.rank r me)
    (hme : me.peerSendSockets = (s.rank r).peerSendSockets) (p : ℕ) :
    (s'.rank p).peerSendSockets = (s.rank p).peerSendSockets := by
  rw [hrank]
  by_cases hp : p = r
  · rw [hp, update_self, hme]
  · rw [update_of_ne hp]

theorem Rank.advance_peers (x : Rank) (a : Op) (rest : List Op) (m : Memory) :
    (x.advance a rest m).peerSendSockets = x.peerSendSockets := rfl

theorem queue_same (hme : me.peerSendSockets = (s.rank r).peerSendSockets)
    (hy : y.pending = (s.socket k).pending) : ((s.setSocket k y).setRank r me).queue = s.queue := by
  funext c
  cases c with
  | peer p q t =>
    have hpeers : (((s.setSocket k y).setRank r me).rank p).peerSendSockets =
      (s.rank p).peerSendSockets := peerSendSockets_update rfl hme p
    rw [State.queue, State.queue, hpeers]
    exact congrArg _ (funext (field_update Socket.pending hy))
  | ring p q => rfl

theorem queue_keep {i : ℕ × ℕ} (hnone : (s.rank r).peerSendSockets i = none)
    (hme : me.peerSendSockets = update (s.rank r).peerSendSockets i (some k))
    (hy : y.pending = (s.socket k).pending) (hempty : (s.socket k).pending = []) :
    ((s.setSocket k y).setRank r me).queue = s.queue := by
  have hpending : ∀ k', (((s.setSocket k y).setRank r me).socket k').pending =
      (s.socket k').pending := field_update Socket.pending hy
  funext c
  cases c with
  | peer p q t =>
    rw [State.queue, State.queue]
    simp only [hpending]
    change ((update s.rank r me p).peerSendSockets (q, t)).elim [] _ = _
    by_cases hp : p = r
    · subst hp
      rw [update_self, hme]
      grind
    · rw [update_of_ne hp]
  | ring p q => rfl

theorem queue_update (h : Inv s) {p q t : ℕ} (hk : (s.rank p).peerSendSockets (q, t) = some k)
    (hme : me.peerSendSockets = (s.rank r).peerSendSockets) :
    ((s.setSocket k y).setRank r me).queue = update s.queue (.peer p q t) y.pending := by
  funext c
  cases c with
  | peer p' q' t' =>
    have hpeers : (((s.setSocket k y).setRank r me).rank p').peerSendSockets =
      (s.rank p').peerSendSockets := peerSendSockets_update rfl hme p'
    rw [State.queue, hpeers]
    by_cases hc : Link.peer p' q' t' = .peer p q t
    · cases hc
      rw [update_self, hk]
      change (update s.socket k y k).pending = y.pending
      rw [update_self]
    · rw [update_of_ne hc, State.queue]
      cases hk' : (s.rank p').peerSendSockets (q', t') with
      | none => rfl
      | some k' =>
        -- a socket has one source, target and tag
        have hne : k' ≠ k := fun hkk => by
          subst hkk
          have hkept := (h.out p).kept hk
          have hkept' := (h.out p').kept hk'
          grind [Kept]
        change (update s.socket k y k').pending = (s.socket k').pending
        rw [update_of_ne hne]
  | ring p' q' =>
    have hne : Link.ring p' q' ≠ .peer p q t := nofun
    rw [update_of_ne hne]
    rfl

end Fifo

section Refinement

variable {s s' : State} {r p q t : ℕ} {l : Label} {x : Span} {rest : List Op}

def Simulates (s s' : State) : Prop :=
  s'.fifo = s.fifo ∨ ∃ r, FifoPrograms.step store s.fifo r = some s'.fifo

theorem simulates_send {c : Link} {v : Payload} (htodo : (s.rank r).todo = .send c l x :: rest)
    (hv : v = readSpan (s.rank r).mem x) (hrank : s'.rank = update s.rank r
      ((s.rank r).advance (.send c l x) rest (s.rank r).mem))
    (hqueue : s'.queue = update s.queue c (s.queue c ++ [(l, v)])) : Simulates s s' := by
  refine .inr ⟨r, ?_⟩
  have hfifo : s.fifo.todo r = .send c l x :: rest := htodo
  have hmem : s.fifo.setMem r (s.rank r).mem = s.fifo :=
    FifoPrograms.State.ext rfl rfl rfl (update_eq_self r s.fifo.mem)
  rw [FifoPrograms.step, hfifo, fifo_advance hrank, hqueue, hmem, hv]
  rfl

theorem simulates_recv {c : Link} {l' : Label} {v : Payload}
    (htodo : (s.rank r).todo = .recv c l x :: rest) (hc : s.queue c = (l', v) :: ms)
    (hrank : s'.rank = update s.rank r
      ((s.rank r).advance (.recv c l x) rest (writeSpan (s.rank r).mem x v)))
    (hqueue : s'.queue = update s.queue c ms) : Simulates s s' := by
  refine .inr ⟨r, ?_⟩
  have hfifo : s.fifo.todo r = .recv c l x :: rest := htodo
  have hq : s.fifo.queue c = (l', v) :: ms := hc
  rw [FifoPrograms.step, hfifo, fifo_advance hrank, hqueue]
  simp only [hq]
  rfl

theorem sendPeer_ok (h : Inv s) (htodo : (s.rank r).todo = .send (.peer p q t) l x :: rest)
    (hp : p = r) (hs : sendPeer s r rest l x p q t = some s') : Inv s' ∧ Simulates s s' := by
  subst hp
  rw [sendPeer] at hs
  split at hs
  next hpc =>
    split at hs
    next k hk =>
      cases hs
      have hkept := (h.out p).kept hk
      have hread := (h.inc q).read_le hkept.lt hkept.target
      refine ⟨h.data hpc hk _ _ _, simulates_send htodo rfl rfl ?_⟩
      refine (queue_update h hk ?_).trans ?_
      · rfl
      · rw [Socket.pending_push hread, State.queue, hk]
        rfl
    next hnone =>
      cases hs
      refine ⟨h.connect hpc htodo hnone, .inl (fifo_same rfl rfl rfl rfl ?_)⟩
      funext c
      cases c with
      | peer p' q' t' =>
        have hpeers : ((connect s p q).rank p').peerSendSockets = (s.rank p').peerSendSockets := by
          refine peerSendSockets_update rfl ?_ p'
          rfl
        rw [State.queue, State.queue, hpeers]
        cases hk : (s.rank p').peerSendSockets (q', t') with
        | none => rfl
        | some k =>
          have hne := Nat.ne_of_lt ((h.out p').kept hk).lt
          exact congrArg Socket.pending (update_of_ne hne _ s.socket)
      | ring p' q' => rfl
  next k hpc =>
    cases hs
    have hopen := (h.out p).connected hpc
    have hread := (h.inc _).read_le hopen.lt rfl
    refine ⟨h.sendRank hpc, .inl (fifo_same rfl rfl rfl rfl (queue_same rfl ?_))⟩
    rw [Socket.pending_push hread, messages, messages, append_nil]
  next k hpc =>
    cases hs
    have hopen := (h.out p).sentRank hpc
    have hread := (h.inc _).read_le hopen.lt rfl
    obtain ⟨p', t', l', x', rest', htodo', hnone⟩ := hopen.todo
    rw [htodo] at htodo'
    cases htodo'
    refine ⟨h.sendTag hpc htodo, .inl (fifo_same rfl rfl rfl rfl (queue_keep hnone rfl ?_ ?_))⟩
    · rw [Socket.pending_push hread, messages, messages, append_nil]
    · rw [Socket.pending, hopen.stream]
      cases (s.socket k).read with
      | zero => rfl
      | succ n =>
        rw [drop_succ_cons, drop_nil]
        rfl
  next => cases hs

theorem recvPeer_ok (h : Inv s) (htodo : (s.rank r).todo = .recv (.peer p q t) l x :: rest)
    (hq : q = r) (hs : recvPeer s r rest l x p q t = some s') : Inv s' ∧ Simulates s s' := by
  subst hq
  rw [recvPeer] at hs
  split at hs
  next hpc =>
    split at hs
    next k hk =>
      split at hs
      next l' v hf =>
        split at hs
        next =>
          cases hs
          obtain ⟨-, -, hkept⟩ := (h.inc q).registered hk
          have hc : s.queue (.peer p q t) = (l', v) :: (s.socket k).pop.pending := by
            rw [State.queue, hkept]
            exact Socket.pending_next hf
          refine ⟨h.pop hpc hk hf _ _, simulates_recv htodo hc rfl (queue_update h hkept ?_)⟩
          rfl
        next => cases hs
      next => cases hs
    next hnone =>
      cases hs
      refine ⟨h.wait hpc htodo hnone, .inl (fifo_same rfl rfl rfl rfl ?_)⟩
      funext c
      cases c with
      | peer p' q' t' =>
        have hpeers : ((s.setRank q { s.rank q with pc := .accepting }).rank p').peerSendSockets =
            (s.rank p').peerSendSockets := by
          refine peerSendSockets_update rfl ?_ p'
          rfl
        rw [State.queue, State.queue, hpeers]
        rfl
      | ring p' q' => rfl
  next k hpc =>
    split at hs
    next n hf =>
      cases hs
      refine ⟨h.recvRank hpc hf, .inl (fifo_same rfl rfl rfl rfl (queue_same rfl ?_))⟩
      exact (Socket.pending_next hf).symm
    next => cases hs
  next k n hpc =>
    split at hs
    next m hf =>
      cases hs
      refine ⟨h.recvTag hpc htodo hf, .inl (fifo_same rfl rfl rfl rfl (queue_same rfl ?_))⟩
      exact (Socket.pending_next hf).symm
    next => cases hs
  next => cases hs

theorem Inv.pc_ready (h : Inv s) {a : Op} (htodo : (s.rank r).todo = a :: rest)
    (hsend : ∀ p q t l x, a ≠ .send (.peer p q t) l x)
    (hrecv : ∀ p q t l x, a ≠ .recv (.peer p q t) l x) : (s.rank r).pc = .ready := by
  have hopen : ∀ k header, ¬ Opening s r k header := fun k header ho => by
    grind [Opening]
  have hwait : (s.rank r).pc.waiting = .ready := by
    by_contra hw
    obtain ⟨p, q, t, l, x, rest', htodo', -⟩ := (h.inc r).waiting hw
    rw [htodo] at htodo'
    exact hrecv _ _ _ _ _ (cons.inj htodo').1
  cases hpc : (s.rank r).pc with
  | ready => rfl
  | connected k => exact absurd ((h.out r).connected hpc) (hopen _ _)
  | sentRank k => exact absurd ((h.out r).sentRank hpc) (hopen _ _)
  | accepting | accepted k | gotRank k n =>
    rw [hpc] at hwait
    cases hwait

theorem sendRing_ok (h : Inv s) (htodo : (s.rank r).todo = .send (.ring p q) l x :: rest)
    (hs : sendRing s r rest l x p q = some s') : Inv s' ∧ Simulates s s' := by
  have hpc := h.pc_ready htodo nofun nofun
  cases hs
  refine ⟨h.advance hpc _ _ rfl rfl rfl, simulates_send htodo rfl rfl (queue_ring ?_ ?_ ?_)⟩
  · exact peerSendSockets_update rfl ((s.rank r).advance_peers _ _ _)
  · rfl
  · rfl

theorem recvRing_ok (h : Inv s) (htodo : (s.rank r).todo = .recv (.ring p q) l x :: rest)
    (hs : recvRing s r rest l x p q = some s') : Inv s' ∧ Simulates s s' := by
  have hpc := h.pc_ready htodo nofun nofun
  rw [recvRing] at hs
  split at hs
  next l' v ms hring =>
    split at hs
    next =>
      cases hs
      refine ⟨h.advance hpc _ _ rfl rfl rfl, simulates_recv htodo hring rfl (queue_ring ?_ ?_ ?_)⟩
      · exact peerSendSockets_update rfl ((s.rank r).advance_peers _ _ _)
      · rfl
      · rfl
    next => cases hs
  next => cases hs

theorem simulates_move {y : Span} (htodo : (s.rank r).todo = .move x y :: rest)
    (hrank : s'.rank = update s.rank r ((s.rank r).advance (.move x y) rest
      (writeSpan (s.rank r).mem x (readSpan (s.rank r).mem y))))
    (hsocket : s'.socket = s.socket) (hring : s'.ring = s.ring) : Simulates s s' := by
  refine .inr ⟨r, ?_⟩
  have hfifo : s.fifo.todo r = .move x y :: rest := htodo
  have hqueue : s'.queue = s.queue := by
    funext c
    cases c with
    | peer p' q' t' =>
      rw [State.queue, State.queue, hsocket,
        peerSendSockets_update hrank ((s.rank r).advance_peers _ _ _)]
    | ring p' q' => rw [State.queue, State.queue, hring]
  rw [FifoPrograms.step, hfifo, fifo_advance hrank, hqueue]
  rfl

theorem step_ok {e : Event} (h : Inv s)
    (hsource : ∀ {r c l x rest}, (s.rank r).todo = .send c l x :: rest → c.source = r)
    (htarget : ∀ {r c l x rest}, (s.rank r).todo = .recv c l x :: rest → c.target = r)
    (hs : step s e = some s') : Inv s' ∧ Simulates s s' := by
  cases e with
  | run r =>
    rw [step] at hs
    split at hs
    next => cases hs
    next htodo => exact sendPeer_ok h htodo (hsource htodo) hs
    next htodo => exact sendRing_ok h htodo hs
    next htodo => exact recvPeer_ok h htodo (htarget htodo) hs
    next htodo => exact recvRing_ok h htodo hs
    next htodo =>
      have hpc := h.pc_ready htodo nofun nofun
      cases hs
      exact ⟨h.advance hpc _ _ rfl rfl rfl, simulates_move htodo rfl rfl rfl⟩
  | accept r k =>
    rw [step] at hs
    split at hs
    next hc =>
      cases hs
      refine ⟨h.accept hc.1 hc.2.1 hc.2.2.1 hc.2.2.2, .inl (fifo_same rfl rfl rfl rfl ?_)⟩
      exact queue_same rfl rfl
    next => cases hs

end Refinement

theorem inv_initial (S : Schedule) (mem : ℕ → Memory) : Inv (initial S mem) :=
  ⟨Outgoing.initial S mem, Incoming.initial S mem⟩

theorem fifo_initial (S : Schedule) (mem : ℕ → Memory) :
    (initial S mem).fifo = FifoPrograms.initial S.program mem := by
  refine FifoPrograms.State.ext rfl rfl (funext fun c => ?_) rfl
  cases c <;> rfl

theorem run_fifo {S : Schedule} {mem : ℕ → Memory} {s : State}
    (h : (machine S mem).Run anyStep s) :
    Inv s ∧ (FifoPrograms.machine store S.program mem).Run anyStep s.fifo := by
  refine h.ofStep_induct
    (I := fun s => Inv s ∧ (FifoPrograms.machine store S.program mem).Run anyStep s.fifo)
    ⟨inv_initial S mem, ?_⟩ fun s e t hs _ he => ?_
  · rw [fifo_initial]
    exact .init
  · have hd := Delivered.of_run S.matched hs.2
    obtain ⟨hinv, heq | ⟨r, hr⟩⟩ := step_ok hs.1
      (fun htodo => S.matched.sends (FifoPrograms.mem_program hd.split htodo))
      (fun htodo => S.matched.recvs (FifoPrograms.mem_program hd.split htodo)) he
    · exact ⟨hinv, heq.symm ▸ hs.2⟩
    · exact ⟨hinv, hs.2.then trivial hr⟩

section Receiving

def State.incoming (s : State) (r : ℕ) : Option Frame :=
  match (s.rank r).pc, (s.rank r).todo with
  | .ready, .recv (.peer p _ t) _ _ :: _ =>
    ((s.rank r).peerRecvSockets (p, t)).bind fun k => (s.socket k).next
  | .ready, .recv (.ring p q) _ _ :: _ => (s.ring p q).head?.map fun m => .data m.1 m.2
  | _, _ => none

def State.expected (s : State) (r : ℕ) : Option (Label × ℕ) :=
  match (s.rank r).todo with
  | .recv _ l x :: _ => some (l, x.size)
  | _ => none

variable {S : Schedule} {mem : ℕ → Memory} {s : State} {r p q t : ℕ} {l : Label} {x : Span}
  {rest : List Op}

variable {c : Link}

theorem expected_of_todo (htodo : (s.rank r).todo = .recv c l x :: rest) :
    s.expected r = some (l, x.size) := by
  rw [State.expected, htodo]

theorem Kept.next_data {k : ℕ} {f : Frame} (h : Kept s p q t k) (htwo : 2 ≤ (s.socket k).read)
    (hf : (s.socket k).next = some f) : ∃ l v, f = .data l v := by
  grind [Socket.next, Kept]

section

variable (h : (machine S mem).Run anyStep s)
include h

theorem first_of_queue {l' : Label} {v : Payload}
    (htodo : (s.rank r).todo = .recv c l x :: rest) (hq : s.queue c = (l', v) :: ms) :
    l' = l ∧ v.size = x.size := by
  obtain ⟨-, hrun⟩ := run_fifo h
  have hd := Delivered.of_run S.matched hrun
  have hl : l' = l := hd.label_eq S.matched (p := r) htodo hq
  have hsize : v.size = l'.size := by
    refine mem_queue_of_run (R := fun l v => v.size = l.size) S.matched (fun m hsend => ?_) hrun
      (c := c) (l := l') (v := v) ?_
    · obtain ⟨k, -, hsized⟩ := S.sized hsend
      exact hsized.2.2
    · change (l', v) ∈ s.queue c
      exact hq ▸ mem_cons_self
  obtain ⟨k, -, hsized⟩ := S.sized (FifoPrograms.mem_program hd.split (p := r) htodo)
  exact ⟨hl, hsize.trans (hl ▸ hsized.2.2.symm)⟩

theorem sent_of_queue {v : Payload} (hq : (l, v) ∈ s.queue c) :
    ∃ y, Act.send c l y ∈ (s.rank c.source).done := by
  have hd := Delivered.of_run S.matched (run_fifo h).2
  have hl : l ∈ sendsOn c (s.fifo.done c.source) := by
    rw [hd.queue c]
    exact mem_append_right _ (mem_map.mpr ⟨(l, v), hq, rfl⟩)
  exact exists_send_of_sendsOn hl

theorem incoming_queue {f : Frame} (hf : s.incoming r = some f) : ∃ c l x rest l' v ms,
      (s.rank r).todo = .recv c l x :: rest ∧ f = .data l' v ∧ s.queue c = (l', v) :: ms := by
  obtain ⟨hinv, hrun⟩ := run_fifo h
  have hd := Delivered.of_run S.matched hrun
  rw [State.incoming] at hf
  split at hf
  next p q t l x rest hpc htodo =>
    obtain ⟨k, hk, hnext⟩ := Option.bind_eq_some_iff.mp hf
    obtain rfl : q = r := S.matched.recvs (FifoPrograms.mem_program hd.split htodo)
    obtain ⟨-, htwo, hkept⟩ := (hinv.inc q).registered hk
    obtain ⟨l', v, rfl⟩ := ((hinv.out p).kept hkept).next_data htwo hnext
    refine ⟨.peer p q t, l, x, rest, l', v, (s.socket k).pop.pending, htodo, rfl, ?_⟩
    rw [State.queue, hkept]
    exact Socket.pending_next hnext
  next p q l x rest hpc htodo =>
    obtain ⟨m, hm, rfl⟩ := Option.map_eq_some_iff.mp hf
    obtain ⟨ms, hms⟩ := head?_eq_some_iff.mp hm
    exact ⟨.ring p q, l, x, rest, m.1, m.2, ms, htodo, rfl, hms⟩
  next => cases hf

end

end Receiving

section Progress

variable {S : Schedule} {mem : ℕ → Memory} {s : State} {r p q t k : ℕ} {l : Label} {x : Span}
  {rest : List Op}

theorem step_of_opening (h : Inv s) (hpc : (s.rank p).pc = .connected k ∨
    (s.rank p).pc = .sentRank k) : step s (.run p) ≠ none := by
  rcases hpc with hpc | hpc
  · obtain ⟨p', t, l, x, rest, htodo, -⟩ := ((h.out p).connected hpc).todo
    rw [step, htodo]
    simp only [sendPeer, hpc]
    nofun
  · obtain ⟨p', t, l, x, rest, htodo, -⟩ := ((h.out p).sentRank hpc).todo
    rw [step, htodo]
    simp only [sendPeer, hpc]
    nofun

theorem kept_of_stuck (h : Inv s) (hstuck : ∀ e, step s e = none) (hk : k < s.opened) :
    ∃ t, Kept s (s.socket k).source (s.socket k).target t k := by
  rcases (h.out (s.socket k).source).opener hk rfl with hpc | hpc | ⟨t, ht⟩
  · exact absurd (hstuck _) (step_of_opening h (.inl hpc))
  · exact absurd (hstuck _) (step_of_opening h (.inr hpc))
  · exact ⟨t, (h.out _).kept ht⟩

theorem Kept.next_ne_none (h : Kept s p q t k) (hlt : (s.socket k).read < 2) :
    (s.socket k).next ≠ none := by
  grind [Socket.next, Kept]

section

variable (h : (machine S mem).Run anyStep s)
include h

theorem blocked_of_recvPeer (hstuck : ∀ e, step s e = none)
    (htodo : (s.rank r).todo = .recv (.peer p q t) l x :: rest) : s.queue (.peer p q t) = [] := by
  obtain ⟨hinv, hrun⟩ := run_fifo h
  have hd := Delivered.of_run S.matched hrun
  obtain rfl : q = r := S.matched.recvs (FifoPrograms.mem_program hd.split htodo)
  have hnone : recvPeer s q rest l x p q t = none := by
    have hs := hstuck (.run q)
    rwa [step, htodo] at hs
  cases hpc : (s.rank q).pc with
  | ready =>
    rw [recvPeer, hpc] at hnone
    cases hk : (s.rank q).peerRecvSockets (p, t) with
    | none => simp only [hk, reduceCtorEq] at hnone
    | some k =>
      obtain ⟨ha, htwo, hkept⟩ := (hinv.inc q).registered hk
      rw [State.queue, hkept]
      cases hf : (s.socket k).next with
      | none =>
        change messages ((s.socket k).stream.drop (s.socket k).read) = []
        rw [drop_eq_nil_of_le (getElem?_eq_none_iff.mp hf)]
        rfl
      | some f =>
        have hin : s.incoming q = some f := by
          simp only [State.incoming, hpc, htodo, hk]
          exact hf
        obtain ⟨c, l₀, x₀, rest₀, l', v, ms, htodo₀, rfl, hq⟩ := incoming_queue h hin
        cases htodo.symm.trans htodo₀
        have hsize := (first_of_queue h htodo hq).2.le
        simp only [hk, hf, if_pos hsize, reduceCtorEq] at hnone
  | connected k => exact absurd (hstuck _) (step_of_opening hinv (.inl hpc))
  | sentRank k => exact absurd (hstuck _) (step_of_opening hinv (.inr hpc))
  | accepting =>
    rw [State.queue]
    cases hk : (s.rank p).peerSendSockets (q, t) with
    | none => rfl
    | some k =>
      -- the socket would have been accepted, so it would be registered and not waited for
      have hkept := (hinv.out p).kept hk
      have hwait : (s.rank q).pc.waiting ≠ .ready := by
        intro hready
        rw [hpc] at hready
        cases hready
      obtain ⟨p', q', t', l', x', rest', htodo', hfree⟩ := (hinv.inc q).waiting hwait
      rw [htodo] at htodo'
      cases htodo'
      have hacc : (s.socket k).accepted = true := by
        by_contra hnot
        have hs := hstuck (.accept q k)
        rw [step, if_pos ⟨hpc, hkept.lt, hkept.target, Bool.not_eq_true _ ▸ hnot⟩] at hs
        cases hs
      rcases (hinv.inc q).reader ⟨hkept.lt, hkept.target, hacc⟩ with hc | hc | ⟨t', ht'⟩
      · rw [hpc] at hc
        cases hc
      · rw [hpc] at hc
        cases hc
      · obtain ⟨-, -, hkept'⟩ := (hinv.inc q).registered ht'
        have hk' := (hinv.out _).kept hkept'
        obtain ⟨ms, hms⟩ := hkept.stream
        obtain ⟨ms', hms'⟩ := hk'.stream
        rw [hms] at hms'
        cases (cons.inj (cons.inj hms').2).1
        rw [hkept.source, hfree] at ht'
        cases ht'
  | accepted k =>
    obtain ⟨ha, hzero⟩ := (hinv.inc q).accepted hpc
    obtain ⟨t', hkept⟩ := kept_of_stuck hinv hstuck ha.lt
    cases hf : (s.socket k).next with
    | none => exact absurd hf (hkept.next_ne_none (by omega))
    | some f =>
      have hhead : (s.socket k).stream[0]? = some f := hzero ▸ hf
      cases (hinv.out _).header_rank ha.lt hhead
      simp only [recvPeer, hpc, hf, reduceCtorEq] at hnone
  | gotRank k n =>
    obtain ⟨ha, hone, -⟩ := (hinv.inc q).gotRank hpc
    obtain ⟨t', hkept⟩ := kept_of_stuck hinv hstuck ha.lt
    cases hf : (s.socket k).next with
    | none => exact absurd hf (hkept.next_ne_none (by omega))
    | some f =>
      have hhead : (s.socket k).stream[1]? = some f := hone ▸ hf
      obtain ⟨m, rfl, -⟩ := (hinv.out _).header_tag ha.lt hhead
      simp only [recvPeer, hpc, hf, reduceCtorEq] at hnone

theorem blocked_of_stuck (hstuck : ∀ e, step s e = none) (r : ℕ) :
    (s.rank r).todo = [] ∨ Blocked s.fifo r := by
  obtain ⟨hinv, hrun⟩ := run_fifo h
  have hs := hstuck (.run r)
  rw [step] at hs
  split at hs
  next htodo => exact .inl htodo
  next htodo =>
    rw [sendPeer] at hs
    split at hs
    next => split at hs <;> cases hs
    next => cases hs
    next => cases hs
    next hready hconn hsent =>
      have hwait : (s.rank r).pc.waiting ≠ .ready := by
        cases hpc : (s.rank r).pc with
        | ready => exact absurd hpc hready
        | connected k => exact absurd hpc (hconn k)
        | sentRank k => exact absurd hpc (hsent k)
        | accepting | accepted k | gotRank k n => nofun
      obtain ⟨p', q', t', l', x', rest', htodo', -⟩ := (hinv.inc r).waiting hwait
      rw [htodo] at htodo'
      cases htodo'
  next => cases hs
  next htodo =>
    exact .inr ⟨_, _, _, _, htodo, blocked_of_recvPeer h hstuck htodo⟩
  next p q l x rest htodo =>
    refine .inr ⟨_, _, _, _, htodo, ?_⟩
    change s.ring p q = []
    grind [recvRing, State.queue, first_of_queue]
  next => cases hs

theorem finished_of_stuck {number : ℕ → ℕ}
    (hnumber : ∀ r, (S.order r).Pairwise fun k k' => number k < number k')
    (hstuck : ∀ e, step s e = none) (r : ℕ) : (s.rank r).todo = [] :=
  (Delivered.of_run S.matched (run_fifo h).2).todo_eq_nil S.matched
    (fun r => S.pairwise r (hnumber r)) (blocked_of_stuck h hstuck) r

end

end Progress

/-- In any sequence of calls that any two ranks make in the same order, whatever a `recv` finds
on its socket is the message that the rank it names sent for it in that step of that call, of the
size it has room for. If moreover the calls can be numbered such that every rank makes them in
increasing order, no `recv` waits for ever: the ranks get stuck only when all calls have
returned. -/
theorem recvs_obtain_matching {S : Schedule} {mem : ℕ → Memory} {s : State}
    (h : (machine S mem).Run anyStep s) :
    (∀ r f, s.incoming r = some f → ∃ l v, f = .data l v ∧ s.expected r = some (l, v.size) ∧
      ∃ c y, Act.send c l y ∈ (s.rank l.source).done ∧ c.target = r) ∧
    ∀ number : ℕ → ℕ, (∀ r, (S.order r).Pairwise fun k k' => number k < number k') →
      (∀ e, step s e = none) → ∀ r, (s.rank r).todo = [] := by
  refine ⟨fun r f hf => ?_, fun number hnumber hstuck r => finished_of_stuck h hnumber hstuck r⟩
  obtain ⟨c, l, x, rest, l', v, ms, htodo, rfl, hq⟩ := incoming_queue h hf
  obtain ⟨rfl, hsize⟩ := first_of_queue h htodo hq
  obtain ⟨y, hy⟩ := sent_of_queue h (hq ▸ mem_cons_self)
  have hd := Delivered.of_run S.matched (run_fifo h).2
  obtain ⟨-, -, -, htarget, -, hsource⟩ := S.mem_program (FifoPrograms.mem_program hd.split htodo)
  refine ⟨l', v, rfl, ?_, c, y, hsource ▸ hy, htarget⟩
  rw [expected_of_todo htodo, hsize]

def barrierThenGather : Schedule where
  call k := if k = 0 then .groupBarrier [0, 1] else .groupAllGather 1 [0, 1]
  order r := if r ∈ [0, 1] then [0, 1] else []
  valid k := by
    split
    · exact (by decide : [0, 1].Nodup)
    · exact (by decide : [0, 1].Nodup)
  member {r k} h := by
    have hr : r ∈ [0, 1] := by
      by_contra hr
      rw [if_neg hr] at h
      exact absurd h not_mem_nil
    split <;> exact hr
  once r := by split <;> decide
  agree p q := by
    have hranks : ∀ k, Call.ranks (if k = 0 then .groupBarrier [0, 1]
        else .groupAllGather 1 [0, 1]) = [0, 1] := fun k => by split <;> rfl
    exact Schedule.agree_together [0, 1] hranks p q

def barrierThenGatherTrace : List Event :=
  replicate 4 (.run 0) ++ replicate 4 (.run 1) ++ [.run 0, .accept 0 1] ++
    replicate 3 (.run 0) ++ [.run 1, .accept 1 0] ++ replicate 3 (.run 1) ++
    [.run 0, .run 1]

theorem recvs_obtain_matching_gather : ∃ s,
    (machine barrierThenGather fun _ _ _ _ => 0).Run anyStep s ∧
      ∃ f l v, s.incoming 1 = some f ∧ f = .data l v ∧ s.expected 1 = some (l, v.size) ∧
        l = ⟨1, 0, 0, 1⟩ ∧ ∃ c y, Act.send c l y ∈ (s.rank l.source).done ∧ c.target = 1 := by
  obtain ⟨s, hrun, hP⟩ := run_of_replay (machine barrierThenGather fun _ _ _ _ => 0)
    anyStep barrierThenGatherTrace
    (fun s => (s.incoming 1).isSome ∧ s.expected 1 = some (⟨1, 0, 0, 1⟩, 1))
    (by decide +kernel)
  obtain ⟨f, hf⟩ := Option.isSome_iff_exists.mp hP.1
  obtain ⟨l, v, hfv, hexp, hsent⟩ := (recvs_obtain_matching hrun).1 1 f hf
  have hl : l = ⟨1, 0, 0, 1⟩ := by
    rw [hP.2] at hexp
    exact (congrArg Prod.fst (Option.some.inj hexp)).symm
  exact ⟨s, hrun, f, l, v, hf, hfv, hexp, hl, hsent⟩

end BootstrapSockets
