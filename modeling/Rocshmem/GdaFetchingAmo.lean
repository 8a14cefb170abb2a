import Rocshmem.GdaBnxtSendRing
import Rocshmem.GdaMlx5SendQueue
import Rocshmem.ResultSlots

/-! The result slots of the fetching AMOs of one queue pair. An AMO takes its slot under the SQ
lock from the counter `fetching_atomic_idx`; its caller loads the slot after a quiet that it
calls without the lock. Nothing marks a slot as read. -/
namespace GdaFetchingAmo

open GuardedMachines ResultSlots

def fetchingAtomicCnt : UInt32 := 1024

def atomicIdx (t : ℕ) : UInt32 := UInt32.ofNat t % fetchingAtomicCnt

theorem atomicIdx_toNat (t : ℕ) : (atomicIdx t).toNat = t % 1024 := by
  rw [atomicIdx, UInt32.toNat_mod, UInt32.toNat_ofNat']
  exact Nat.mod_mod_of_dvd t (by decide)

theorem atomicIdx_apart (c t : ℕ) (hlt : c < t) (hnear : t < c + 1024) :
    atomicIdx c ≠ atomicIdx t := by
  intro heq
  have := congrArg UInt32.toNat heq
  rw [atomicIdx_toNat, atomicIdx_toNat] at this
  omega

namespace Mlx5

open GdaMlx5CompletionWait (SendQueue Caller)
open GdaMlx5SendQueue (Poster RoomShown)

structure State where
  sq : GdaMlx5SendQueue.State
  quiet : ℕ → Caller

inductive Event where
  | sq (e : GdaMlx5SendQueue.Event)
  | call (i : ℕ)
  | enter (i : ℕ)
  | poll (i : ℕ)

def State.view (s : State) (i : ℕ) : GdaMlx5CompletionWait.State :=
  ⟨s.sq.posted, s.sq.shown, s.sq.cqe, s.quiet i⟩

def Enabled (q : SendQueue) (s : State) : Event → Prop
  | .sq e => GdaMlx5SendQueue.Enabled s.sq e
  | .call i => GdaMlx5CompletionWait.Enabled q (s.view i) .call
  | .enter i => GdaMlx5CompletionWait.Enabled q (s.view i) .enter
  | .poll i => GdaMlx5CompletionWait.Enabled q (s.view i) .poll

instance (q : SendQueue) (s : State) (e : Event) : Decidable (Enabled q s e) := by
  cases e <;> dsimp only [Enabled] <;> infer_instance

def quietStep (q : SendQueue) (s : State) (i : ℕ) (e : GdaMlx5CompletionWait.Event) : State :=
  { s with
    quiet := Function.update s.quiet i
      (GdaMlx5CompletionWait.next q q.depth (s.view i) e).caller }

def next (q : SendQueue) (s : State) : Event → State
  | .sq e => { s with sq := GdaMlx5SendQueue.next q s.sq e }
  | .call i => quietStep q s i .call
  | .enter i => quietStep q s i .enter
  | .poll i => quietStep q s i .poll

def fetchingLanes : Poster → ℕ
  | .writing p _ => if p.fetching then p.lanes else 0
  | .free | .locked _ | .polling _ _ | .counted _ | .rung => 0

def writeEffect (lane : ℕ) : Poster → Effect
  | .writing p _ => if p.fetching then .draw lane else .other
  | .free | .locked _ | .polling _ _ | .counted _ | .rung => .other

def effect (s : State) : Event → Effect
  | .sq (.write lane) => writeEffect lane s.sq.poster
  | .sq .count => .count
  | .sq (.complete _ _) => .complete
  | .call i => .call i
  | .sq (.lock _) | .sq .enter | .sq .poll | .sq .ring | .sq .release | .enter _ | .poll _ => .other

def covers : Caller → Option ℕ
  | .idle => none
  | .called b | .polling b _ | .returned b _ => some b

def returned : Caller → Bool
  | .returned _ _ => true
  | .idle | .called _ | .polling _ _ => false

def queue (q : SendQueue) : Queue State Event where
  machine := ⟨⟨GdaMlx5SendQueue.initial, fun _ => .idle⟩, Enabled q, next q⟩
  posted s := s.sq.posted
  completed s := s.sq.completed
  group s := fetchingLanes s.sq.poster
  effect := effect
  covers s i := covers (s.quiet i)
  returned s i := returned (s.quiet i)

def SpaceKept (q : SendQueue) (s : State) : Event → Prop
  | .sq e => RoomShown q s.sq e
  | .enter _ => s.sq.posted + q.depth.toNat < 2 ^ 64
  | .call _ | .poll _ => True

instance (q : SendQueue) (s : State) (e : Event) : Decidable (SpaceKept q s e) := by
  cases e <;> dsimp only [SpaceKept] <;> infer_instance

def QuietOk (sq : GdaMlx5SendQueue.State) : Caller → Prop
  | .idle => True
  | .called b => b ≤ sq.posted
  | .polling b p => b ≤ p ∧ p ≤ sq.posted
  | .returned b _ => b ≤ sq.completed

structure Invariant (q : SendQueue) (s : State) : Prop where
  sq : GdaMlx5SendQueue.Invariant q s.sq
  quiet : ∀ i, QuietOk s.sq (s.quiet i)

section Steps

variable {q : SendQueue} {s : State}

theorem counts_grow {sq : GdaMlx5SendQueue.State} {e : GdaMlx5SendQueue.Event}
    (he : GdaMlx5SendQueue.Enabled sq e) : sq.posted ≤ (GdaMlx5SendQueue.next q sq e).posted ∧
      sq.completed ≤ (GdaMlx5SendQueue.next q sq e).completed := by
  cases e with
  | lock p | enter | poll | release => exact ⟨le_refl _, le_refl _⟩
  | write lane =>
    obtain ⟨p, pending, hp, -⟩ := he
    rw [GdaMlx5SendQueue.next_write hp]
    exact ⟨le_refl _, le_refl _⟩
  | count =>
    obtain ⟨p, hp⟩ := he
    rw [GdaMlx5SendQueue.next_count hp]
    exact ⟨Nat.le_add_right _ _, le_refl _⟩
  | ring =>
    obtain ⟨p, hp⟩ := he
    rw [GdaMlx5SendQueue.next_ring hp]
    exact ⟨le_refl _, le_refl _⟩
  | complete signature owner => exact ⟨le_refl _, Nat.le_succ _⟩

theorem quietOk_mono {sq sq' : GdaMlx5SendQueue.State} (hp : sq.posted ≤ sq'.posted)
    (hc : sq.completed ≤ sq'.completed) {c : Caller} (h : QuietOk sq c) : QuietOk sq' c := by
  cases c with
  | idle => trivial
  | called b => exact le_trans h hp
  | polling b p => exact ⟨h.1, h.2.trans hp⟩
  | returned b p => exact le_trans h hc

theorem quietStep_preserves (h : Invariant q s) {i : ℕ} {e : GdaMlx5CompletionWait.Event}
    (hok : QuietOk s.sq (GdaMlx5CompletionWait.next q q.depth (s.view i) e).caller) :
    Invariant q (quietStep q s i e) := by
  refine ⟨h.sq, fun j => ?_⟩
  by_cases hj : j = i
  · subst hj
    simpa [quietStep] using hok
  · simpa [quietStep, hj] using h.quiet j

theorem poll_drained (h : Invariant q s) {i b p : ℕ} (hm : s.quiet i = .polling b p) :
    QuietOk s.sq (GdaMlx5CompletionWait.pollCaller q q.depth (s.view i) (.polling b p)) := by
  have hq := h.quiet i
  rw [hm] at hq
  have hwindow := h.sq.window
  have hshown := h.sq.shown_le
  obtain ⟨hbp, hp⟩ := hq
  rw [GdaMlx5CompletionWait.pollCaller]
  split
  · rename_i hret
    have := GdaMlx5CompletionWait.iteration_returns_drained h.sq.shows (by omega) hret
    change b ≤ s.sq.completed
    omega
  · exact ⟨hbp, hp⟩

theorem enter_drained (h : Invariant q s) {i b : ℕ} (hm : s.quiet i = .called b)
    (hfit : s.sq.posted + q.depth.toNat < 2 ^ 64) :
    QuietOk s.sq (GdaMlx5CompletionWait.enterCaller q q.depth (s.view i) (.called b)) := by
  have hb := h.quiet i
  rw [hm] at hb
  change b ≤ s.sq.posted at hb
  rw [GdaMlx5CompletionWait.enterCaller]
  split
  · rename_i hret
    have := GdaMlx5CompletionWait.entry_returns_drained hfit hret
    change b ≤ s.sq.completed
    omega
  · exact ⟨hb, le_refl _⟩

theorem step_preserves {e : Event} (h : Invariant q s) (he : Enabled q s e)
    (hok : SpaceKept q s e) : Invariant q (next q s e) := by
  cases e with
  | sq e =>
    have hgrow := counts_grow (q := q) he
    exact ⟨GdaMlx5SendQueue.step_preserves h.sq he hok,
      fun i => quietOk_mono hgrow.1 hgrow.2 (h.quiet i)⟩
  | call i => exact quietStep_preserves h (show QuietOk s.sq (.called _) from le_refl _)
  | enter i =>
    obtain ⟨b, hm⟩ := he
    refine quietStep_preserves h ?_
    have hd := enter_drained h hm hok
    rw [← hm] at hd
    exact hd
  | poll i =>
    obtain ⟨b, p, hm⟩ := he
    refine quietStep_preserves h ?_
    have hd := poll_drained h hm
    rw [← hm] at hd
    exact hd

theorem between_of_free {e : GdaMlx5SendQueue.Event} (h0 : fetchingLanes s.sq.poster = 0)
    (hposted : (GdaMlx5SendQueue.next q s.sq e).posted = s.sq.posted)
    (hcompleted : (GdaMlx5SendQueue.next q s.sq e).completed = s.sq.completed) :
    (queue q).Between s (next q s (.sq e)) :=
  ⟨hcompleted, .inr ⟨h0, hposted.ge⟩⟩

theorem write_acts {lane : ℕ} (h : Invariant q s) (he : Enabled q s (.sq (.write lane))) :
    (queue q).Acts s (next q s (.sq (.write lane))) (writeEffect lane s.sq.poster) := by
  obtain ⟨p, pending, hp, hl⟩ := he
  have hwrite := h.sq.poster
  rw [hp] at hwrite
  have hnext := GdaMlx5SendQueue.next_write (q := q) hp lane
  rw [hp, writeEffect]
  cases hf : p.fetching with
  | false =>
    refine between_of_free ?_ ?_ ?_
    · simp [hp, fetchingLanes, hf]
    · rw [hnext]
    · rw [hnext]
  | true =>
    refine ⟨?_, ?_, ?_, ?_⟩
    · simp only [queue, hp, fetchingLanes, hf, if_true]
      exact hwrite.inRange lane hl
    · simp only [queue, next, hnext]
    · simp only [queue, next, hnext]
    · simp only [queue, next, hnext, hp, fetchingLanes]

theorem sq_acts {e : GdaMlx5SendQueue.Event} (h : Invariant q s) (he : Enabled q s (.sq e)) :
    (queue q).Acts s (next q s (.sq e)) (effect s (.sq e)) := by
  cases e with
  | write lane => exact write_acts h he
  | lock p =>
    have hp : s.sq.poster = .free := he
    exact between_of_free (by rw [hp]; rfl) (by rfl) (by rfl)
  | enter =>
    obtain ⟨p, hp⟩ := he
    exact between_of_free (by rw [hp]; rfl) (by rfl) (by rfl)
  | poll =>
    obtain ⟨p, v, hp⟩ := he
    exact between_of_free (by rw [hp]; rfl) (by rfl) (by rfl)
  | ring =>
    obtain ⟨p, hp⟩ := he
    have hnext := GdaMlx5SendQueue.next_ring (q := q) hp
    exact between_of_free (by rw [hp]; rfl) (by rw [hnext]) (by rw [hnext])
  | release =>
    have hp : s.sq.poster = .rung := he
    exact between_of_free (by rw [hp]; rfl) (by rfl) (by rfl)
  | count =>
    obtain ⟨p, hp⟩ := he
    have hnext := GdaMlx5SendQueue.next_count (q := q) hp
    refine ⟨?_, ?_⟩
    · simp only [queue, next, hnext]
    · simp only [queue, next, hnext, hp, fetchingLanes]
      split <;> omega
  | complete signature owner => exact ⟨rfl, rfl, rfl⟩

theorem covers_keeps {e : Event} (he : Enabled q s e) {i b : ℕ}
    (hb : covers (s.quiet i) = some b) : covers ((next q s e).quiet i) = some b := by
  have hstep : ∀ (j : ℕ) (e : GdaMlx5CompletionWait.Event),
      (j = i → covers (GdaMlx5CompletionWait.next q q.depth (s.view j) e).caller = some b) →
      covers ((quietStep q s j e).quiet i) = some b := by
    intro j e hj
    by_cases hji : i = j
    · subst hji
      simpa [quietStep] using hj rfl
    · simpa [quietStep, hji] using hb
  cases e with
  | sq e => exact hb
  | call j =>
    refine hstep j .call fun hji => ?_
    subst hji
    have hidle : s.quiet j = .idle := he
    rw [hidle] at hb
    cases hb
  | enter j =>
    refine hstep j .enter fun hji => ?_
    subst hji
    obtain ⟨b', hm⟩ := he
    have hm' : s.quiet j = .called b' := hm
    rw [hm'] at hb
    simp only [GdaMlx5CompletionWait.next, State.view, hm', GdaMlx5CompletionWait.enterCaller]
    split <;> exact hb
  | poll j =>
    refine hstep j .poll fun hji => ?_
    subst hji
    obtain ⟨b', p, hm⟩ := he
    have hm' : s.quiet j = .polling b' p := hm
    rw [hm'] at hb
    simp only [GdaMlx5CompletionWait.next, State.view, hm', GdaMlx5CompletionWait.pollCaller]
    split <;> exact hb

theorem lawful (q : SendQueue) : (queue q).Lawful (SpaceKept q) (Invariant q) 1024 where
  initial := ⟨GdaMlx5SendQueue.initial_invariant q, fun _ => trivial⟩
  step _ _ h he hok := step_preserves h he hok
  ordered _ h := h.sq.completed_le.trans h.sq.rung_le
  small s _ := by
    change fetchingLanes s.sq.poster ≤ 1024
    cases s.sq.poster with
    | writing p pending =>
      have := GdaMlx5SendQueue.lanes_lt p
      simp only [fetchingLanes]
      split <;> omega
    | _ => exact Nat.zero_le _
  acts s e h he := by
    cases e with
    | sq e => exact sq_acts h he
    | call i =>
      refine ⟨?_, rfl, .inl ⟨rfl, rfl⟩⟩
      simp [queue, next, quietStep, covers, GdaMlx5CompletionWait.next, State.view]
    | enter i | poll i => exact ⟨rfl, .inl ⟨rfl, rfl⟩⟩
  keeps _ _ _ _ he hb := covers_keeps he hb
  drained s i b h hret hb := by
    have hq := h.quiet i
    change returned (s.quiet i) = true at hret
    change covers (s.quiet i) = some b at hb
    cases hm : s.quiet i with
    | returned b' p =>
      rw [hm] at hq hb
      cases hb
      exact hq
    | idle | called _ | polling _ _ =>
      rw [hm] at hret
      cases hret

end Steps

end Mlx5

namespace Bnxt

open GdaBnxtSendRing (Ring Request Poster Quiet RoomInRing)

structure State where
  sq : GdaBnxtSendRing.State
  fetching : Bool

inductive Event where
  | lock (req : Request) (fetching : Bool)
  | sq (e : GdaBnxtSendRing.Event)

def locks : GdaBnxtSendRing.Event → Bool
  | .lock _ => true
  | .complete | .loadCqe | .loadTail | .write | .advance | .call _ | .quietLoadCqe _
  | .quietLoadTail _ => false

def Enabled (s : State) : Event → Prop
  | .lock req fetching =>
    GdaBnxtSendRing.Enabled s.sq (.lock req) ∧ (fetching = true → req = .amo)
  | .sq e => GdaBnxtSendRing.Enabled s.sq e ∧ locks e = false

instance (s : State) (e : Event) : Decidable (Enabled s e) := by
  cases e <;> dsimp only [Enabled] <;> infer_instance

def next (ring : Ring) (s : State) : Event → State
  | .lock req fetching => ⟨GdaBnxtSendRing.next ring s.sq (.lock req), fetching⟩
  | .sq e => { s with sq := GdaBnxtSendRing.next ring s.sq e }

def fetchingLanes (fetching : Bool) : Poster → ℕ
  | .ready _ | .written => if fetching then 1 else 0
  | .free | .polling _ | .headRead _ _ => 0

def effect (s : State) : Event → Effect
  | .sq .write => if s.fetching then .draw 0 else .other
  | .sq .advance => .count
  | .sq .complete => .complete
  | .sq (.call i) => .call i
  | .lock _ _ | .sq (.lock _) | .sq .loadCqe | .sq .loadTail | .sq (.quietLoadCqe _)
  | .sq (.quietLoadTail _) => .other

def covers : Quiet → Option ℕ
  | .idle => none
  | .called b | .headRead b _ _ | .returned b => some b

def returned : Quiet → Bool
  | .returned _ => true
  | .idle | .called _ | .headRead _ _ _ => false

def queue (ring : Ring) : Queue State Event where
  machine := ⟨⟨GdaBnxtSendRing.initial ring, false⟩, Enabled, next ring⟩
  posted s := s.sq.posted
  completed s := s.sq.completed
  group s := fetchingLanes s.fetching s.sq.poster
  effect := effect
  covers s i := covers (s.sq.quiet i)
  returned s i := returned (s.sq.quiet i)

def SpaceKept (ring : Ring) (s : State) : Event → Prop
  | .lock req _ => RoomInRing ring s.sq (.lock req)
  | .sq e => RoomInRing ring s.sq e

instance (ring : Ring) (s : State) (e : Event) : Decidable (SpaceKept ring s e) := by
  cases e <;> dsimp only [SpaceKept] <;> infer_instance

def Invariant (ring : Ring) (s : State) : Prop := GdaBnxtSendRing.Invariant ring s.sq

section Steps

variable {ring : Ring} {s : State}

theorem sq_acts {e : GdaBnxtSendRing.Event} (he : Enabled s (.sq e)) :
    (queue ring).Acts s (next ring s (.sq e)) (effect s (.sq e)) := by
  obtain ⟨hen, hlock⟩ := he
  cases e with
  | lock req => cases hlock
  | complete => exact ⟨rfl, rfl, rfl⟩
  | loadCqe =>
    obtain ⟨req, hp⟩ := hen
    exact ⟨rfl, .inr ⟨by simp only [queue, hp, fetchingLanes], le_refl _⟩⟩
  | loadTail =>
    obtain ⟨req, head, hp⟩ := hen
    exact ⟨rfl, .inr ⟨by simp only [queue, hp, fetchingLanes], le_refl _⟩⟩
  | write =>
    obtain ⟨req, hp⟩ := hen
    have hnext : GdaBnxtSendRing.next ring s.sq .write = { s.sq with
        poster := .written
        clobbered := s.sq.clobbered ++ GdaBnxtSendRing.touched ring s.sq req } := by
      simp only [GdaBnxtSendRing.next, hp]
    cases hf : s.fetching with
    | false =>
      simp only [effect, hf]
      refine ⟨?_, .inr ⟨?_, ?_⟩⟩
      · simp only [queue, next, hnext]
      · simp [queue, fetchingLanes, hp, hf]
      · simp only [queue, next, hnext, le_refl]
    | true =>
      simp only [effect, hf]
      refine ⟨?_, ?_, ?_, ?_⟩
      · simp [queue, fetchingLanes, hp, hf]
      · simp only [queue, next, hnext]
      · simp only [queue, next, hnext]
      · simp [queue, next, hnext, fetchingLanes, hp, hf]
  | advance =>
    have hp : s.sq.poster = .written := hen
    refine ⟨rfl, ?_⟩
    change s.sq.posted + fetchingLanes s.fetching s.sq.poster ≤ s.sq.posted + 1
    simp only [fetchingLanes, hp]
    split <;> omega
  | call i =>
    refine ⟨?_, rfl, .inl ⟨rfl, rfl⟩⟩
    simp [queue, next, GdaBnxtSendRing.next, covers]
  | quietLoadCqe | quietLoadTail => exact ⟨rfl, .inl ⟨rfl, rfl⟩⟩

theorem covers_keeps {e : Event} (he : Enabled s e) {i b : ℕ}
    (hb : covers (s.sq.quiet i) = some b) : covers ((next ring s e).sq.quiet i) = some b := by
  have hstep : ∀ (j : ℕ) (c : Quiet), (j = i → covers c = some b) →
      covers (Function.update s.sq.quiet j c i) = some b := by
    intro j c hj
    by_cases hji : i = j
    · subst hji
      simpa using hj rfl
    · simpa [hji] using hb
  cases e with
  | lock req fetching => exact hb
  | sq e =>
    have hen := he.1
    cases e with
    | complete | lock _ | loadCqe | loadTail | advance => exact hb
    | write =>
      obtain ⟨req, hp⟩ := hen
      simpa only [next, GdaBnxtSendRing.next, hp] using hb
    | call j =>
      refine hstep j _ fun hji => ?_
      have hidle : s.sq.quiet j = .idle := hen
      rw [← hji, hidle] at hb
      cases hb
    | quietLoadCqe j =>
      refine hstep j _ fun hji => ?_
      obtain ⟨b', hm⟩ := hen
      rw [← hji, hm] at hb
      rw [hm]
      exact hb
    | quietLoadTail j =>
      refine hstep j _ fun hji => ?_
      obtain ⟨b', c, head, hm⟩ := hen
      rw [← hji, hm] at hb
      rw [hm, GdaBnxtSendRing.quietLoadTail]
      split <;> exact hb

theorem lawful (ring : Ring) : (queue ring).Lawful (SpaceKept ring) (Invariant ring) 1024 where
  initial := GdaBnxtSendRing.initial_invariant ring
  step s e h he hok := by
    cases e with
    | lock req fetching =>
      exact GdaBnxtSendRing.step_preserves_invariant (e := .lock req) h he.1 hok
    | sq e => exact GdaBnxtSendRing.step_preserves_invariant h he.1 hok
  ordered _ h := h.ordered
  small s _ := by
    change fetchingLanes s.fetching s.sq.poster ≤ 1024
    unfold fetchingLanes
    split <;> (try split) <;> omega
  acts s e _ he := by
    cases e with
    | lock req fetching =>
      have hp : s.sq.poster = .free := he.1
      exact ⟨rfl, .inr ⟨by simp only [queue, hp, fetchingLanes], le_refl _⟩⟩
    | sq e => exact sq_acts he
  keeps _ _ _ _ he hb := covers_keeps he hb
  drained s i b h hret hb := by
    have hq := h.quiet i
    change returned (s.sq.quiet i) = true at hret
    change covers (s.sq.quiet i) = some b at hb
    cases hm : s.sq.quiet i with
    | returned b' =>
      rw [hm] at hq hb
      cases hb
      exact hq
    | idle | called _ | headRead _ _ _ =>
      rw [hm] at hret
      cases hret

end Steps

end Bnxt

abbrev Amos (σ : Type) := ResultSlots.State σ UInt32 UInt64

def OwnValues {σ : Type} (s : Amos σ) : Prop :=
  (∀ c t, s.results.Unread c → s.results.Unread t → atomicIdx c = atomicIdx t → c = t) ∧
    ∀ t v, s.results.answer t = some v → s.results.fetched t = some v

def mlx5 (q : GdaMlx5CompletionWait.SendQueue) :
    Machine (Amos Mlx5.State) (ResultSlots.Event Mlx5.Event UInt64) :=
  (Mlx5.queue q).system atomicIdx

def bnxt (ring : GdaBnxtSendRing.Ring) :
    Machine (Amos Bnxt.State) (ResultSlots.Event Bnxt.Event UInt64) :=
  (Bnxt.queue ring).system atomicIdx

instance (q : GdaMlx5CompletionWait.SendQueue) (s : Amos Mlx5.State)
    (e : ResultSlots.Event Mlx5.Event UInt64) : Decidable ((mlx5 q).enabled s e) :=
  haveI (s : Mlx5.State) (e : Mlx5.Event) : Decidable ((Mlx5.queue q).machine.enabled s e) :=
    inferInstanceAs (Decidable (Mlx5.Enabled q s e))
  inferInstanceAs (Decidable ((Mlx5.queue q).Enabled s e))

instance (ring : GdaBnxtSendRing.Ring) (s : Amos Bnxt.State)
    (e : ResultSlots.Event Bnxt.Event UInt64) : Decidable ((bnxt ring).enabled s e) :=
  haveI (s : Bnxt.State) (e : Bnxt.Event) : Decidable ((Bnxt.queue ring).machine.enabled s e) :=
    inferInstanceAs (Decidable (Bnxt.Enabled s e))
  inferInstanceAs (Decidable ((Bnxt.queue ring).Enabled s e))

abbrev mlx5Paced (q : GdaMlx5CompletionWait.SendQueue) :
    Amos Mlx5.State → ResultSlots.Event Mlx5.Event UInt64 → Prop :=
  (Mlx5.queue q).Paced (Mlx5.SpaceKept q) 1024

abbrev bnxtPaced (ring : GdaBnxtSendRing.Ring) :
    Amos Bnxt.State → ResultSlots.Event Bnxt.Event UInt64 → Prop :=
  (Bnxt.queue ring).Paced (Bnxt.SpaceKept ring) 1024

def waveOfTwo : List (ResultSlots.Event Mlx5.Event UInt64) :=
  [.post (.sq (.lock (.amo 2 true))), .post (.sq .enter), .post (.sq (.write 1)),
    .post (.sq (.write 0)), .post (.sq .count), .post (.sq .ring), .post (.sq .release),
    .call (.call 0) [0, 1], .post (.enter 0), .complete (.sq (.complete 0 0)) 5,
    .post (.poll 0), .complete (.sq (.complete 0 0)) 9, .post (.poll 0), .read 0, .read 1]

def bnxtLane : List (ResultSlots.Event Bnxt.Event UInt64) :=
  [.post (.lock .amo true), .post (.sq .loadCqe), .post (.sq .loadTail), .post (.sq .write),
    .post (.sq .advance), .call (.sq (.call 0)) [0], .post (.sq (.quietLoadCqe 0)),
    .post (.sq (.quietLoadTail 0)), .complete (.sq .complete) 7, .post (.sq (.quietLoadCqe 0)),
    .post (.sq (.quietLoadTail 0)), .read 0]

def deepQueue : GdaMlx5CompletionWait.SendQueue := ⟨2048, 11, by decide, rfl⟩

/-- The caller of the first AMO has returned from its quiet and not loaded its slot yet, while
`k` AMOs after it were posted and completed. -/
structure Stalled (k : ℕ) (s : Amos Mlx5.State) : Prop where
  run : (mlx5 deepQueue).Run anyStep s
  free : s.queue.sq.poster = .free
  posted : s.queue.sq.posted = k + 1
  completed : s.queue.sq.completed = k + 1
  counter : s.counter = k + 1
  first : s.waits 0 = some 0 ∧ Mlx5.returned (s.queue.quiet 0) = true
  unread : ∀ t, s.results.answer t = none
  drawn : 0 ∈ s.results.drawn
  fetched : s.results.fetched 0 = some 0

theorem post_step {q : GdaMlx5CompletionWait.SendQueue} {s s' : Amos Mlx5.State}
    (h : (mlx5 q).Run anyStep s) (e : Mlx5.Event) (he : Mlx5.Enabled q s.queue e)
    (hposts : (Mlx5.effect s.queue e).posts = true) (hs : (Mlx5.queue q).post s e = s') :
    (mlx5 q).Run anyStep s' := by
  subst hs
  exact h.step (e := ResultSlots.Event.post e) ⟨he, hposts⟩ trivial

theorem stalled_step {k : ℕ} {s : Amos Mlx5.State} (h : Stalled k s) (hk : k < 1024) :
    ∃ s', Stalled (k + 1) s' ∧ k + 1 ∈ s'.results.drawn ∧
      s'.results.content (atomicIdx (k + 1)) = 1 := by
  obtain ⟨hrun, hfree, hposted, hcompleted, hcounter, hfirst, hunread, hdrawn, hfetched⟩ := h
  obtain ⟨⟨⟨posted, rung, completed, shown, cqe, slots, poster⟩, quiet⟩, counter, ticket, waits,
    results⟩ := s
  dsimp only at *
  subst hfree hposted hcompleted hcounter
  have hret : GdaMlx5CompletionWait.pollEntryReturns 2048 (UInt64.ofNat (k + 1)) 1 = true := by
    simp only [GdaMlx5CompletionWait.pollEntryReturns, decide_eq_true_eq, UInt64.le_iff_toNat_le,
      UInt64.toNat_add, UInt64.toNat_ofNat', UInt16.toNat_toUInt64]
    change ((k + 1) % 2 ^ 64 + 1) % 2 ^ 64 ≤ 2048
    omega
  let p : GdaMlx5SendQueue.Path := .amoSingle true
  have h1 : (mlx5 deepQueue).Run anyStep
      ⟨⟨⟨k + 1, rung, k + 1, shown, cqe, slots, .locked p⟩, quiet⟩, k + 1, ticket,
        waits, results⟩ :=
    post_step hrun (.sq (.lock p)) rfl rfl rfl
  have h2 : (mlx5 deepQueue).Run anyStep
      ⟨⟨⟨k + 1, rung, k + 1, shown, cqe, slots, .writing p [0]⟩, quiet⟩,
        k + 1, ticket, waits, results⟩ := by
    refine post_step h1 (.sq .enter) ⟨p, rfl⟩ rfl ?_
    have : GdaMlx5SendQueue.enterPoster deepQueue
        ⟨k + 1, rung, k + 1, shown, cqe, slots, .locked p⟩ (.locked p) = .writing p [0] :=
      if_pos hret
    simp only [Queue.post, Mlx5.queue, Mlx5.effect, Mlx5.next, GdaMlx5SendQueue.next, this]
  have h3 := post_step h2 (.sq (.write 0)) ⟨p, [0], rfl, by simp⟩ rfl rfl
  have h4 := post_step h3 (.sq .count) ⟨p, rfl⟩ rfl rfl
  have h5 := post_step h4 (.sq .ring) ⟨p, rfl⟩ rfl rfl
  have h6 := post_step h5 (.sq .release) rfl rfl rfl
  have h7 := h6.step (e := ResultSlots.Event.complete (Mlx5.Event.sq (.complete 0 0)) 1)
    ⟨⟨Nat.lt_succ_self (k + 1), by decide⟩, rfl⟩ trivial
  have hdeliver : (Mlx5.queue deepQueue).deliver atomicIdx
      ⟨⟨⟨k + 2, k + 2, k + 1, shown, cqe, slots, .free⟩, quiet⟩, k + 2,
        Function.update ticket (k + 1) (some (k + 1)), waits, results.draw (k + 1)⟩ (1 : UInt64) =
      (results.draw (k + 1)).fill atomicIdx (k + 1) 1 := by
    simp [Queue.deliver, Mlx5.queue]
  refine ⟨_, ⟨h7, rfl, rfl, rfl, rfl, hfirst, ?_, ?_, ?_⟩, ?_, ?_⟩
  · intro t
    exact (congrArg (fun r => r.answer t) hdeliver).trans (hunread t)
  · exact (congrArg (fun r => 0 ∈ r.drawn) hdeliver).mpr (List.mem_cons_of_mem _ hdrawn)
  · refine (congrArg (fun r => r.fetched 0) hdeliver).trans ?_
    simp [Slots.fill, Slots.draw, hfetched]
  · exact (congrArg (fun r => k + 1 ∈ r.drawn) hdeliver).mpr List.mem_cons_self
  · refine (congrArg (fun r => r.content (atomicIdx (k + 1))) hdeliver).trans ?_
    simp [Slots.fill]

def firstAmo : List (ResultSlots.Event Mlx5.Event UInt64) :=
  [.post (.sq (.lock (.amoSingle true))), .post (.sq .enter), .post (.sq (.write 0)),
    .post (.sq .count), .post (.sq .ring), .post (.sq .release),
    .complete (.sq (.complete 0 0)) 0, .call (.call 0) [0], .post (.enter 0), .post (.poll 0)]

theorem stalled_zero : ∃ s, Stalled 0 s := by
  have hsome : ((mlx5 deepQueue).replay anyStep firstAmo
      (mlx5 deepQueue).initial).isSome = true := by
    decide
  exact ⟨_, Machine.Run.init.replay (Option.some_get hsome).symm, rfl, rfl, rfl, rfl, ⟨rfl, rfl⟩,
    fun _ => rfl, List.mem_cons_self, rfl⟩

theorem stalled_while (k : ℕ) (hk : k ≤ 1024) : ∃ s, Stalled k s := by
  induction k with
  | zero => exact stalled_zero
  | succ k ih =>
    obtain ⟨s, hs⟩ := ih (by omega)
    obtain ⟨s', hs', -⟩ := stalled_step hs (by omega)
    exact ⟨s', hs'⟩

end GdaFetchingAmo
