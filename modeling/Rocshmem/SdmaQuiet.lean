import Rocshmem.SdmaRing

/-! `sdmaQuiet` and `sdmaQuietAll` of one context. The waves of the context submit copies to the
rings of the channels and mark a bit for each; a quiet takes the bits of its PEs and waits for
the channels it found marked. -/
namespace SdmaQuiet

open Function GuardedMachines SdmaRing

structure Channels where
  numChannels : ℕ
  shmSize : ℕ
  pos : 0 < numChannels
  le : numChannels ≤ 8
  fits : shmSize * numChannels ≤ 64

inductive Scope where
  | one (pe : ℕ)
  | all
  deriving DecidableEq

structure Copy where
  pe : ℕ
  channel : ℕ
  stop : ℕ
  deriving DecidableEq

def Scope.Covers : Scope → Copy → Prop
  | .one pe, c => c.pe = pe
  | .all, _ => True

def bit (i : ℕ) : BitVec 64 := 1#64 <<< i

namespace Channels

variable (z : Channels)

def index (pe channel : ℕ) : ℕ := pe * z.numChannels + channel

def peMask (pe : ℕ) : BitVec 64 :=
  ((1#64 <<< z.numChannels) - 1#64) <<< (pe * z.numChannels)

def mask : Scope → BitVec 64
  | .one pe => z.peMask pe
  | .all => BitVec.allOnes 64

end Channels

def nextBit (dirty : BitVec 64) : Option ℕ := (List.range 64).find? (dirty.getLsbD ·)

inductive Wave where
  | idle
  | copying (pe channel : ℕ) (c : Producer)
  | marking (pe channel : ℕ)
  | looking (scope : Scope)
  | taking (scope : Scope)
  | draining (scope : Scope) (dirty : BitVec 64)
  | polling (scope : Scope) (dirty : BitVec 64) (i target : ℕ)
  deriving DecidableEq

structure State (N : ℕ) where
  queues : ℕ → Queue
  sdmaDirty : BitVec 64
  waves : Fin N → Wave
  sent : Fin N → List Copy

def initial (N : ℕ) : State N := ⟨fun _ => .initial, 0, fun _ => .idle, fun _ => []⟩

inductive Event (N : ℕ) where
  | copy (w : Fin N) (pe channel : ℕ) (packets : List (List Dword))
  | put (w : Fin N) (a : Action)
  | publish (w : Fin N)
  | mark (w : Fin N)
  | call (w : Fin N) (scope : Scope) (tests : Bool)
  | look (w : Fin N)
  | take (w : Fin N)
  | load (w : Fin N)
  | poll (w : Fin N)
  | read (i n : ℕ)

variable {N : ℕ}

def State.setWave (s : State N) (w : Fin N) (x : Wave) : State N :=
  { s with waves := update s.waves w x }

def State.setQueue (s : State N) (i : ℕ) (q : Queue) : State N :=
  { s with queues := update s.queues i q }

def afterBit (scope : Scope) (dirty : BitVec 64) : Wave :=
  if dirty = 0#64 then .idle else .draining scope dirty

def step (z : Channels) (s : State N) : Event N → Option (State N)
  | .copy w pe ch packets =>
    match s.waves w with
    | .idle =>
      if pe < z.shmSize ∧ ch < z.numChannels then
        (producerStep (s.queues (z.index pe ch)) .idle (.start packets)).map fun x =>
          (s.setQueue (z.index pe ch) x.1).setWave w (.copying pe ch x.2)
      else none
    | _ => none
  | .put w a =>
    match s.waves w with
    | .copying _ _ (.committed _) => none
    | .copying pe ch c =>
      (producerStep (s.queues (z.index pe ch)) c a).map fun x =>
        (s.setQueue (z.index pe ch) x.1).setWave w (.copying pe ch x.2)
    | _ => none
  | .publish w =>
    match s.waves w with
    | .copying pe ch (.committed pending) =>
      some { (s.setQueue (z.index pe ch)
          { s.queues (z.index pe ch) with maxWritePtr := pending }).setWave w (.marking pe ch) with
        sent := update s.sent w (⟨pe, ch, pending⟩ :: s.sent w) }
    | _ => none
  | .mark w =>
    match s.waves w with
    | .marking pe ch =>
      some { s.setWave w .idle with sdmaDirty := s.sdmaDirty ||| bit (z.index pe ch) }
    | _ => none
  | .call w scope tests =>
    match s.waves w with
    | .idle => some (s.setWave w (if tests then .looking scope else .taking scope))
    | _ => none
  | .look w =>
    match s.waves w with
    | .looking scope =>
      some (s.setWave w (if s.sdmaDirty &&& z.mask scope = 0#64 then .idle else .taking scope))
    | _ => none
  | .take w =>
    match s.waves w with
    | .taking scope =>
      some { s.setWave w (afterBit scope (s.sdmaDirty &&& z.mask scope)) with
        sdmaDirty := s.sdmaDirty &&& ~~~ z.mask scope }
    | _ => none
  | .load w =>
    match s.waves w with
    | .draining scope dirty =>
      (nextBit dirty).map fun i => s.setWave w (.polling scope dirty i (s.queues i).maxWritePtr)
    | _ => none
  | .poll w =>
    match s.waves w with
    | .polling scope dirty i target =>
      if target ≤ (s.queues i).rptr then
        some (s.setWave w (afterBit scope (dirty &&& ~~~ bit i)))
      else none
    | _ => none
  | .read i n =>
    if (s.queues i).rptr + n ≤ (s.queues i).doorbell then
      some (s.setQueue i { s.queues i with rptr := (s.queues i).rptr + n })
    else none

def machine (z : Channels) (N : ℕ) : Machine (State N) (Event N) := .ofStep (initial N) (step z)

instance (z : Channels) (s : State N) (e : Event N) : Decidable ((machine z N).enabled s e) :=
  inferInstanceAs (Decidable ((step z s e).isSome = true))

def returning (z : Channels) (s : State N) : Event N → Option (Fin N × Scope)
  | .look w =>
    match s.waves w with
    | .looking scope => if s.sdmaDirty &&& z.mask scope = 0#64 then some (w, scope) else none
    | _ => none
  | .take w =>
    match s.waves w with
    | .taking scope => if s.sdmaDirty &&& z.mask scope = 0#64 then some (w, scope) else none
    | _ => none
  | .poll w =>
    match s.waves w with
    | .polling scope dirty i target =>
      if target ≤ (s.queues i).rptr ∧ dirty &&& ~~~ bit i = 0#64 then some (w, scope) else none
    | _ => none
  | _ => none

namespace Wave

def dirty : Wave → BitVec 64
  | .draining _ d | .polling _ d _ _ => d
  | _ => 0#64

def mask (z : Channels) : Wave → BitVec 64
  | .looking scope | .taking scope => z.mask scope
  | _ => 0#64

def index (z : Channels) : Wave → Option ℕ
  | .copying pe ch _ => some (z.index pe ch)
  | _ => none

def unpublished (z : Channels) : Wave → Option ℕ
  | .copying pe ch (.committed _) => some (z.index pe ch)
  | _ => none

def producer (z : Channels) (i : ℕ) : Wave → Producer
  | .copying pe ch c => if z.index pe ch = i then c else .idle
  | _ => .idle

end Wave

def Apart (z : Channels) (s : State N) : Event N → Prop
  | .look w | .take w => ∀ v, v ≠ w → (s.waves v).dirty &&& (s.waves w).mask z = 0#64
  | .put w .commit => ∀ v, (s.waves v).unpublished z = none ∨
      (s.waves v).unpublished z ≠ (s.waves w).index z
  | _ => True

instance (z : Channels) (s : State N) (e : Event N) : Decidable (Apart z s e) := by
  rcases e with _ | ⟨_, _ | _⟩ | _ <;> dsimp only [Apart] <;> infer_instance

/-- What `sdmaHostInit` accepts: it checks the number of channels only. -/
structure HostInit where
  numChannels : ℕ
  shmSize : ℕ
  pos : 0 < numChannels
  le : numChannels ≤ 8

namespace HostInit

variable (c : HostInit)

def index (pe channel : ℕ) : ℕ := pe * c.numChannels + channel

def peMask (pe : ℕ) : BitVec 64 :=
  ((1#64 <<< c.numChannels) - 1#64) <<< (pe * c.numChannels)

/-- The PE and channel whose queue `deviceHandles_d[i]` is. -/
def handle (i : ℕ) : ℕ × ℕ := (i / c.numChannels, i % c.numChannels)

def Pair (p : ℕ × ℕ) : Prop := p.1 < c.shmSize ∧ p.2 < c.numChannels

end HostInit

section Bits

variable {z : Channels} {pe ch i : ℕ} {a b : BitVec 64}

theorem getLsbD_bit (hi : i < 64) (j : ℕ) : (bit i).getLsbD j = decide (i = j) := by
  rw [show bit i = BitVec.twoPow 64 i from rfl, BitVec.getLsbD_twoPow]
  simp [hi]

theorem index_lt (hpe : pe < z.shmSize) (hch : ch < z.numChannels) : z.index pe ch < 64 := by
  have hmul : (pe + 1) * z.numChannels ≤ z.shmSize * z.numChannels := Nat.mul_le_mul_right _ hpe
  have := z.fits
  rw [Nat.succ_mul] at hmul
  unfold Channels.index
  omega

theorem getLsbD_ones_iff : ∀ n ≤ 8, ∀ i < 64,
    ((1#64 <<< n) - 1#64).getLsbD i = decide (i < n) := by decide +kernel

theorem getLsbD_mask_iff {c : HostInit} (hi : i < 64) (pe : ℕ) : (c.peMask pe).getLsbD i = true ↔
    ∃ ch < c.numChannels, i = c.index pe ch := by
  have hones := getLsbD_ones_iff c.numChannels c.le (i - pe * c.numChannels) (by omega)
  rw [HostInit.peMask, BitVec.getLsbD_shiftLeft, hones]
  simp only [hi, decide_true, Bool.true_and, Bool.and_eq_true, Bool.not_eq_true',
    decide_eq_false_iff_not, decide_eq_true_eq, HostInit.index]
  constructor
  · intro h
    exact ⟨i - pe * c.numChannels, h.2, by omega⟩
  · rintro ⟨ch, hch, rfl⟩
    omega

theorem getLsbD_peMask (hpe : pe < z.shmSize) (hch : ch < z.numChannels) :
    (z.peMask pe).getLsbD (z.index pe ch) = true :=
  (getLsbD_mask_iff (c := { z with }) (index_lt hpe hch) pe).mpr
    ⟨ch, hch, rfl⟩

theorem getLsbD_mask {scope : Scope} {c : Copy} (hcov : scope.Covers c) (hpe : c.pe < z.shmSize)
    (hch : c.channel < z.numChannels) : (z.mask scope).getLsbD (z.index c.pe c.channel) = true := by
  cases scope with
  | one pe =>
    obtain rfl : c.pe = pe := hcov
    exact getLsbD_peMask hpe hch
  | all =>
    have := index_lt hpe hch
    rw [Channels.mask, BitVec.getLsbD_allOnes]
    exact decide_eq_true this

theorem not_both (h : a &&& b = 0#64) (ha : a.getLsbD i = true) : b.getLsbD i ≠ true := by
  intro hb
  have hbit := congrArg (fun x => BitVec.getLsbD x i) h
  simp [ha, hb] at hbit

end Bits

def Watching : Wave → ℕ → ℕ → Prop
  | .draining _ d, i, _ => d.getLsbD i = true
  | .polling _ d j target, i, u => d.getLsbD i = true ∧ (i = j → u ≤ target)
  | _, _, _ => False

def Drains : Wave → Scope → Prop
  | .draining scope _, scope' | .polling scope _ _ _, scope' => scope = scope'
  | _, _ => False

def State.ringOf (s : State N) (z : Channels) (c : Copy) : Queue :=
  s.queues (z.index c.pe c.channel)

structure Inv (z : Channels) (s : State N) : Prop where
  max_le : ∀ i, (s.queues i).maxWritePtr ≤ (s.queues i).committedWptr
  late : ∀ {w pe ch u}, s.waves w = .copying pe ch (.committed u) →
    u = (s.queues (z.index pe ch)).committedWptr
  copying : ∀ {w pe ch c}, s.waves w = .copying pe ch c → pe < z.shmSize ∧ ch < z.numChannels
  marking : ∀ {w pe ch}, s.waves w = .marking pe ch → pe < z.shmSize ∧ ch < z.numChannels
  sent : ∀ {w c}, c ∈ s.sent w → (c.pe < z.shmSize ∧ c.channel < z.numChannels) ∧
    c.stop ≤ (s.ringOf z c).maxWritePtr
  watched : ∀ {w c}, c ∈ s.sent w → c.stop ≤ (s.ringOf z c).rptr ∨
    s.sdmaDirty.getLsbD (z.index c.pe c.channel) = true ∨
    s.waves w = .marking c.pe c.channel ∨
    ∃ v, Watching (s.waves v) (z.index c.pe c.channel) c.stop
  own : ∀ {w scope c}, Drains (s.waves w) scope → c ∈ s.sent w → scope.Covers c →
    c.stop ≤ (s.ringOf z c).rptr ∨ Watching (s.waves w) (z.index c.pe c.channel) c.stop

namespace Inv

variable {z : Channels} {s : State N} {w : Fin N} {x : Wave} {scope : Scope}
  {dirty : BitVec 64} {pe ch : ℕ}

theorem update_eq {f : Fin N → Wave} {v : Fin N} {y : Wave} (h : update f w x v = y) :
    v = w ∧ x = y ∨ v ≠ w ∧ f v = y := by
  by_cases hv : v = w
  · exact .inl ⟨hv, by rwa [hv, update_self] at h⟩
  · exact .inr ⟨hv, by rwa [update_of_ne hv] at h⟩

theorem setWave (h : Inv z s) {d : BitVec 64}
    (hlate : ∀ {pe ch u}, x ≠ .copying pe ch (.committed u))
    (hcopy : ∀ {pe ch c}, x = .copying pe ch c → pe < z.shmSize ∧ ch < z.numChannels)
    (hmark : ∀ {pe ch}, x ≠ .marking pe ch)
    (hwatch : ∀ {v c}, c ∈ s.sent v → Watching (s.waves w) (z.index c.pe c.channel) c.stop →
      c.stop ≤ (s.ringOf z c).rptr ∨ Watching x (z.index c.pe c.channel) c.stop)
    (hdirty : ∀ {i u}, s.sdmaDirty.getLsbD i = true → d.getLsbD i = true ∨ Watching x i u)
    (hset : ∀ {pe ch}, s.waves w = .marking pe ch → d.getLsbD (z.index pe ch) = true)
    (hown : ∀ {scope c}, Drains x scope → c ∈ s.sent w → scope.Covers c →
      c.stop ≤ (s.ringOf z c).rptr ∨ Watching x (z.index c.pe c.channel) c.stop) :
    Inv z { s.setWave w x with sdmaDirty := d } := by
  have hself : update s.waves w x w = x := update_self ..
  have hne : ∀ {v}, v ≠ w → update s.waves w x v = s.waves v := fun hv => update_of_ne hv ..
  refine ⟨h.max_le, fun {v pe ch u} hv => ?_, fun {v pe ch c} hv => ?_, fun {v pe ch} hv => ?_,
    h.sent, fun {v c} hc => ?_, fun {v sc c} hd hc hcov => ?_⟩
  · rcases update_eq hv with ⟨-, hx⟩ | ⟨-, hv⟩
    · exact absurd hx hlate
    · exact h.late hv
  · rcases update_eq hv with ⟨-, hx⟩ | ⟨-, hv⟩
    · exact hcopy hx
    · exact h.copying hv
  · rcases update_eq hv with ⟨-, hx⟩ | ⟨-, hv⟩
    · exact absurd hx hmark
    · exact h.marking hv
  · have hx : ∀ {i u}, Watching x i u → ∃ v, Watching (update s.waves w x v) i u :=
      fun hw => ⟨w, hself.symm ▸ hw⟩
    rcases h.watched hc with hr | hd | hm | ⟨v', hv'⟩
    · exact .inl hr
    · exact .inr ((hdirty hd).imp_right fun hw => .inr (hx hw))
    · by_cases hvw : v = w
      · rw [hvw] at hm
        exact .inr (.inl (hset hm))
      · exact .inr (.inr (.inl ((hne hvw).trans hm)))
    · by_cases hvw : v' = w
      · rw [hvw] at hv'
        exact (hwatch hc hv').imp_right fun hw => .inr (.inr (hx hw))
      · refine .inr (.inr (.inr ⟨v', ?_⟩))
        change Watching (update s.waves w x v') _ _
        rwa [hne hvw]
  · by_cases hvw : v = w
    · subst hvw
      change Drains (update s.waves v x v) sc at hd
      change _ ∨ Watching (update s.waves v x v) _ _
      rw [hself] at hd ⊢
      exact hown hd hc hcov
    · change Drains (update s.waves w x v) sc at hd
      change _ ∨ Watching (update s.waves w x v) _ _
      rw [hne hvw] at hd ⊢
      exact h.own hd hc hcov

theorem setQuiet (h : Inv z s) (hw : ∀ i u, ¬ Watching (s.waves w) i u)
    (hm : ∀ pe ch, s.waves w ≠ .marking pe ch)
    (hlate : ∀ {pe ch u}, x ≠ .copying pe ch (.committed u))
    (hcopy : ∀ {pe ch c}, x = .copying pe ch c → pe < z.shmSize ∧ ch < z.numChannels)
    (hmark : ∀ {pe ch}, x ≠ .marking pe ch) (hdrain : ∀ scope, ¬ Drains x scope) :
    Inv z (s.setWave w x) :=
  h.setWave hlate hcopy hmark (fun _ hv => absurd hv (hw _ _)) (fun hd => .inl hd)
    (fun hv => absurd hv (hm _ _)) (fun hd => absurd hd (hdrain _))

theorem look (h : Inv z s) (hw : s.waves w = .looking scope) (hx : x = .idle ∨ x = .taking scope) :
    Inv z (s.setWave w x) := by
  refine h.setQuiet (fun i u hv => ?_) (fun pe ch hm => ?_) ?_ ?_ ?_ ?_
  all_goals grind [Drains, Watching]

theorem call (h : Inv z s) (hw : s.waves w = .idle)
    (hx : x = .looking scope ∨ x = .taking scope) : Inv z (s.setWave w x) := by
  refine h.setQuiet (fun i u hv => ?_) (fun pe ch hm => ?_) ?_ ?_ ?_ ?_
  all_goals grind [Drains, Watching]

theorem copy (h : Inv z s) (hw : s.waves w = .idle) (hpe : pe < z.shmSize)
    (hch : ch < z.numChannels) {packets : List (List Dword)} :
    Inv z (s.setWave w (.copying pe ch (.reserving packets))) := by
  refine h.setQuiet (fun i u hv => ?_) (fun pe ch hm => ?_) nofun (fun hx => ?_) nofun nofun
  all_goals grind [Watching]

theorem mark (h : Inv z s) (hw : s.waves w = .marking pe ch) :
    Inv z { s.setWave w .idle with sdmaDirty := s.sdmaDirty ||| bit (z.index pe ch) } := by
  obtain ⟨hpe, hch⟩ := h.marking hw
  refine h.setWave nofun nofun nofun (fun _ hv => ?_) (fun hd => .inl ?_) (fun hm => ?_) nofun
  all_goals grind [Watching, getLsbD_bit, index_lt]

theorem watching_afterBit {i u : ℕ} :
    Watching (afterBit scope dirty) i u ↔ dirty.getLsbD i = true := by
  unfold afterBit
  split
  next h => simp [Watching, h]
  · rfl

theorem drains_afterBit {scope' : Scope} (h : Drains (afterBit scope dirty) scope') :
    scope = scope' := by
  unfold afterBit at h
  split at h
  · exact h.elim
  · exact h

theorem afterBit_cases (P : Wave → Prop) (hi : P .idle) (hd : P (.draining scope dirty)) :
    P (afterBit scope dirty) := by
  unfold afterBit
  split
  · exact hi
  · exact hd

end Inv

theorem Watching.dirty {x : Wave} {i u : ℕ} (h : Watching x i u) : x.dirty.getLsbD i = true := by
  cases x with
  | draining => exact h
  | polling => exact h.1
  | idle | copying | marking | looking | taking => exact h.elim

theorem update_count {f : Queue → ℕ} {queues : ℕ → Queue} {i : ℕ} {q : Queue}
    (h : f q = f (queues i)) (j : ℕ) : f (update queues i q j) = f (queues j) := by
  by_cases hj : j = i
  · rw [hj, update_self, h]
  · rw [update_of_ne hj]

theorem Watching.polled {z : Channels} {s : State N} {w : Fin N} {scope : Scope} {dirty : BitVec 64}
    {i target : ℕ} {c : Copy} (hw : s.waves w = .polling scope dirty i target)
    (hr : target ≤ (s.queues i).rptr) (hv : Watching (s.waves w) (z.index c.pe c.channel) c.stop) :
    c.stop ≤ (s.ringOf z c).rptr ∨
      (dirty &&& ~~~ bit i).getLsbD (z.index c.pe c.channel) = true := by
  grind [State.ringOf, Watching, bit]

namespace Inv

variable {z : Channels} {s : State N} {w : Fin N} {scope : Scope}
  {dirty : BitVec 64} {pe ch i target : ℕ}

theorem dirty_of_sent (h : Inv z s) (hw : ∀ i u, ¬ Watching (s.waves w) i u)
    (hm : ∀ pe ch, s.waves w ≠ .marking pe ch)
    (hap : ∀ v, v ≠ w → (s.waves v).dirty &&& z.mask scope = 0#64) {c : Copy} (hc : c ∈ s.sent w)
    (hcov : scope.Covers c) : c.stop ≤ (s.ringOf z c).rptr ∨
      (s.sdmaDirty &&& z.mask scope).getLsbD (z.index c.pe c.channel) = true := by
  grind [Inv, getLsbD_mask, not_both, Watching.dirty]

theorem take (h : Inv z s) (hw : s.waves w = .taking scope)
    (hap : ∀ v, v ≠ w → (s.waves v).dirty &&& z.mask scope = 0#64) :
    Inv z { s.setWave w (afterBit scope (s.sdmaDirty &&& z.mask scope)) with
      sdmaDirty := s.sdmaDirty &&& ~~~ z.mask scope } := by
  have hnot : ∀ i u, ¬ Watching (s.waves w) i u := by
    intro i u hv
    rwa [hw] at hv
  have hno : ∀ pe ch, s.waves w ≠ .marking pe ch := by
    intro pe ch hm
    rw [hw] at hm
    cases hm
  refine h.setWave (fun {pe ch u} => afterBit_cases (· ≠ .copying pe ch (.committed u)) nofun nofun)
    (fun {pe ch c} => afterBit_cases (· = .copying pe ch c → _) nofun nofun)
    (fun {pe ch} => afterBit_cases (· ≠ .marking pe ch) nofun nofun)
    (fun _ hv => absurd hv (hnot _ _)) (fun {i u} hd => ?_) (fun hm => absurd hm (hno _ _))
    (fun hd hc hcov => ?_)
  all_goals grind [watching_afterBit, drains_afterBit, dirty_of_sent]

theorem load (h : Inv z s) (hw : s.waves w = .draining scope dirty) :
    Inv z (s.setWave w (.polling scope dirty i (s.queues i).maxWritePtr)) := by
  have hwatch : ∀ {v c}, c ∈ s.sent v → Watching (s.waves w) (z.index c.pe c.channel) c.stop →
      Watching (.polling scope dirty i (s.queues i).maxWritePtr) (z.index c.pe c.channel)
        c.stop := by
    intro v c hc hv
    rw [hw] at hv
    refine ⟨hv, fun heq => ?_⟩
    rw [← heq]
    exact (h.sent hc).2
  refine h.setWave nofun nofun nofun (fun hc hv => .inr (hwatch hc hv)) (fun hd => .inl hd)
    (fun hm => ?_) (fun hd hc hcov => ?_)
  all_goals grind [Drains, Inv]

theorem poll (h : Inv z s) (hw : s.waves w = .polling scope dirty i target)
    (hr : target ≤ (s.queues i).rptr) :
    Inv z (s.setWave w (afterBit scope (dirty &&& ~~~ bit i))) := by
  refine h.setWave (fun {pe ch u} => afterBit_cases (· ≠ .copying pe ch (.committed u)) nofun nofun)
    (fun {pe ch c} => afterBit_cases (· = .copying pe ch c → _) nofun nofun)
    (fun {pe ch} => afterBit_cases (· ≠ .marking pe ch) nofun nofun) (fun _ hv => ?_)
    (fun hd => .inl hd) (fun hm => ?_) (fun hd hc hcov => ?_)
  all_goals grind [Drains, Inv, watching_afterBit, drains_afterBit, Watching.polled]

theorem read (h : Inv z s) (i n : ℕ) :
    Inv z (s.setQueue i { s.queues i with rptr := (s.queues i).rptr + n }) := by
  have hmax : ∀ j, (update s.queues i { s.queues i with rptr := (s.queues i).rptr + n }
      j).maxWritePtr = (s.queues j).maxWritePtr := update_count (f := Queue.maxWritePtr) rfl
  have hcom : ∀ j, (update s.queues i { s.queues i with rptr := (s.queues i).rptr + n }
      j).committedWptr = (s.queues j).committedWptr := update_count (f := Queue.committedWptr) rfl
  have hrptr : ∀ j, (s.queues j).rptr ≤ (update s.queues i
      { s.queues i with rptr := (s.queues i).rptr + n } j).rptr := by
    grind
  refine ⟨fun j => ?_, fun hv => (h.late hv).trans (hcom _).symm, h.copying, h.marking,
    fun hc => ⟨(h.sent hc).1, (h.sent hc).2.trans (hmax _).ge⟩,
    fun hc => (h.watched hc).imp_left fun hle => hle.trans (hrptr _),
    fun hd hc hcov => (h.own hd hc hcov).imp_left fun hle => hle.trans (hrptr _)⟩
  exact (hmax j).le.trans ((h.max_le j).trans (hcom j).ge)

end Inv

section Puts

variable {z : Channels} {s t : State N} {w : Fin N} {e : Event N} {pe ch : ℕ} {c : Producer}
  {a : Action} {x : Queue × Producer}

def State.ring (s : State N) (z : Channels) (i : ℕ) : SdmaRing.State N :=
  ⟨s.queues i, fun w => (s.waves w).producer z i⟩

theorem ring_setWave {y : Wave} {i : ℕ} (hy : y.producer z i = (s.waves w).producer z i) :
    (s.setWave w y).ring z i = s.ring z i := by
  have hp : (fun v => (update s.waves w y v).producer z i) =
      fun v => (s.waves v).producer z i := by
    grind
  exact congrArg (SdmaRing.State.mk (s.queues i)) hp

theorem ring_put {y : Wave} (hw : ∀ i, (s.waves w).producer z i = if z.index pe ch = i then c else
      .idle) (hs : producerStep (s.queues (z.index pe ch)) c a = some x)
    (hy : ∀ i, y.producer z i = if z.index pe ch = i then x.2 else .idle) (i : ℕ) :
    ((s.setQueue (z.index pe ch) x.1).setWave w y).ring z i = s.ring z i ∨
      ∃ e', SdmaRing.step (s.ring z i) e' =
        some (((s.setQueue (z.index pe ch) x.1).setWave w y).ring z i) := by
  by_cases hi : z.index pe ch = i
  · subst hi
    refine .inr ⟨.producer w a, ?_⟩
    have hself : (s.ring z (z.index pe ch)).producers w = c := (hw _).trans (if_pos rfl)
    have hq : (s.ring z (z.index pe ch)).queue = s.queues (z.index pe ch) := rfl
    rw [SdmaRing.step, hself, hq, hs]
    refine congrArg some ?_
    have hp : update (fun v => (s.waves v).producer z (z.index pe ch)) w x.2 =
        fun v => (update s.waves w y v).producer z (z.index pe ch) := by
      grind
    have hx : x.1 = update s.queues (z.index pe ch) x.1 (z.index pe ch) := by
      rw [update_self]
    exact congrArg₂ SdmaRing.State.mk hx hp
  · left
    have hprod : y.producer z i = (s.waves w).producer z i := by
      rw [hy, hw, if_neg hi, if_neg hi]
    have hq : (s.setQueue (z.index pe ch) x.1).ring z i = s.ring z i :=
      congrArg (fun q => SdmaRing.State.mk q _) (update_of_ne (Ne.symm hi) ..)
    exact (ring_setWave (s := s.setQueue (z.index pe ch) x.1) hprod).trans hq

theorem producer_copying (hw : s.waves w = .copying pe ch c) (i : ℕ) :
    (s.waves w).producer z i = if z.index pe ch = i then c else .idle := by
  rw [hw]
  rfl

theorem step_ring (hs : step z s e = some t) (i : ℕ) :
    t.ring z i = s.ring z i ∨ ∃ e', SdmaRing.step (s.ring z i) e' = some (t.ring z i) := by
  -- a step of a quiet, and the mark of a bit, move no producer
  have hpause : ∀ {w : Fin N} {y y' : Wave} {d : BitVec 64}, s.waves w = y →
      y.producer z i = .idle → y'.producer z i = .idle →
      State.ring { s.setWave w y' with sdmaDirty := d } z i = s.ring z i := by
    intro w y y' d hw hy hy'
    change (s.setWave w y').ring z i = s.ring z i
    refine ring_setWave ?_
    rw [hw, hy, hy']
  have hafter : ∀ {scope dirty}, (afterBit scope dirty).producer z i = .idle :=
    fun {scope dirty} => Inv.afterBit_cases (fun y => y.producer z i = .idle) rfl rfl
  cases e with
  | copy w pe ch packets =>
    rw [step] at hs
    split at hs
    next hw =>
      split at hs
      · obtain ⟨x, hx, rfl⟩ := Option.map_eq_some_iff.mp hs
        grind [Wave.producer, ring_put]
      · cases hs
    · cases hs
  | put w a =>
    rw [step] at hs
    split at hs
    · cases hs
    next hw =>
      obtain ⟨x, hx, rfl⟩ := Option.map_eq_some_iff.mp hs
      exact ring_put (producer_copying hw) hx (fun _ => rfl) i
    · cases hs
  | publish w =>
    rw [step] at hs
    split at hs
    next pe ch pending hw =>
      cases hs
      refine ring_put (a := Action.publish) (producer_copying hw) (y := .marking pe ch) rfl
        (fun j => ?_) i
      rw [ite_self]
      rfl
    · cases hs
  | mark | take =>
    grind [step, Wave.producer]
  | call | look =>
    rw [step] at hs
    split at hs
    next hw =>
      cases hs
      exact .inl (hpause hw rfl (by split <;> rfl))
    · cases hs
  | load w =>
    rw [step] at hs
    split at hs
    next hw =>
      obtain ⟨j, -, rfl⟩ := Option.map_eq_some_iff.mp hs
      exact .inl (hpause hw rfl rfl)
    · cases hs
  | poll w =>
    rw [step] at hs
    split at hs
    next hw =>
      split at hs
      · cases hs
        exact .inl (hpause hw rfl hafter)
      · cases hs
    · cases hs
  | read j n =>
    rw [step] at hs
    split at hs
    next hle =>
      cases hs
      by_cases hij : i = j
      · subst hij
        refine .inr ⟨.read n, ?_⟩
        rw [SdmaRing.step]
        refine (if_pos hle).trans (congrArg some ?_)
        have hq : { s.queues i with rptr := (s.queues i).rptr + n } = update s.queues i
            { s.queues i with rptr := (s.queues i).rptr + n } i := by rw [update_self]
        exact congrArg (fun q => SdmaRing.State.mk q _) hq
      · exact .inl (congrArg (fun q => SdmaRing.State.mk q _) (update_of_ne hij ..))
    · cases hs

theorem run_ring {ok : State N → Event N → Prop} (h : (machine z N).Run ok s) (i : ℕ) :
    (SdmaRing.machine N).Run anyStep (s.ring z i) := by
  refine h.ofStep_induct (I := fun s => (SdmaRing.machine N).Run anyStep (s.ring z i))
    Machine.Run.init fun s e t hs _ he => ?_
  rcases step_ring he i with heq | ⟨e', he'⟩
  · rwa [heq]
  · exact hs.then trivial he'

end Puts

namespace Inv

variable {z : Channels} {s t : State N} {w : Fin N} {e : Event N} {pe ch : ℕ} {c : Producer}
  {a : Action} {x : Queue × Producer}

theorem committed_mono (hring : ∀ i, SdmaRing.Inv (s.ring z i)) (hw : s.waves w = .copying pe ch c)
    (hs : producerStep (s.queues (z.index pe ch)) c a = some x) (hc : ∀ u, c ≠ .committed u) :
    (s.queues (z.index pe ch)).committedWptr ≤ x.1.committedWptr := by
  obtain ⟨-, -, ⟨heq, -⟩ | ⟨r, u, -, hr, heq, -⟩⟩ := producerStep_counts hs hc
  · exact heq.ge
  · have hok := (hring (z.index pe ch)).producer w
    grind [ProducerOk, State.ring, producer_copying, Tiles.base_le_stop]

theorem afterPut (h : Inv z s) (hw : s.waves w = .copying pe ch c) {q : Queue} {y : Wave}
    {sent : Fin N → List Copy} (hrptr : q.rptr = (s.queues (z.index pe ch)).rptr)
    (hmax : (s.queues (z.index pe ch)).maxWritePtr ≤ q.maxWritePtr)
    (hle : q.maxWritePtr ≤ q.committedWptr)
    (hy : (∃ c', y = .copying pe ch c') ∨ y = .marking pe ch)
    (hlate : ∀ u, y = .copying pe ch (.committed u) → u = q.committedWptr)
    (hothers : q.committedWptr = (s.queues (z.index pe ch)).committedWptr ∨
      ∀ v, (s.waves v).unpublished z ≠ some (z.index pe ch))
    (hsent : ∀ {v c}, c ∈ sent v → c ∈ s.sent v ∨
      v = w ∧ y = .marking pe ch ∧ c.pe = pe ∧ c.channel = ch ∧ c.stop ≤ q.maxWritePtr) :
    Inv z { (s.setQueue (z.index pe ch) q).setWave w y with sent } := by
  have hr : ∀ j, (update s.queues (z.index pe ch) q j).rptr = (s.queues j).rptr :=
    update_count (f := Queue.rptr) hrptr
  have hm : ∀ j, (s.queues j).maxWritePtr ≤
      (update s.queues (z.index pe ch) q j).maxWritePtr := by
    grind
  have hself : update s.waves w y w = y := update_self ..
  have hne : ∀ {v}, v ≠ w → update s.waves w y v = s.waves v := fun hv => update_of_ne hv ..
  have hnoy : ∀ scope, ¬ Drains y scope := by
    rcases hy with ⟨c', rfl⟩ | rfl <;> exact fun _ => id
  refine ⟨fun j => ?_, fun {v pe' ch' u} hv => ?_, fun {v pe' ch' c'} hv => ?_,
    fun {v pe' ch'} hv => ?_, fun {v c'} hc' => ?_, fun {v c'} hc' => ?_,
    fun {v scope c'} hd hc' hcov => ?_⟩
  · change (update s.queues (z.index pe ch) q j).maxWritePtr ≤
      (update s.queues (z.index pe ch) q j).committedWptr
    grind [Inv]
  · change u = (update s.queues (z.index pe ch) q (z.index pe' ch')).committedWptr
    rcases update_eq (f := s.waves) hv with ⟨-, hyv⟩ | ⟨-, hv⟩
    · rcases hy with ⟨c'', rfl⟩ | rfl <;> cases hyv
      rw [update_self]
      exact hlate u rfl
    · grind [Inv, Wave.unpublished]
  · rcases update_eq hv with ⟨-, hyv⟩ | ⟨-, hv⟩
    · rcases hy with ⟨c'', rfl⟩ | rfl <;> cases hyv
      exact h.copying hw
    · exact h.copying hv
  · rcases update_eq hv with ⟨-, hyv⟩ | ⟨-, hv⟩
    · rcases hy with ⟨c'', rfl⟩ | rfl <;> cases hyv
      exact h.copying hw
    · exact h.marking hv
  · rcases hsent hc' with hold | ⟨-, -, hpe, hch, hstop⟩
    · exact ⟨(h.sent hold).1, (h.sent hold).2.trans (hm _)⟩
    · rw [State.ringOf, hpe, hch]
      refine ⟨h.copying hw, hstop.trans_eq ?_⟩
      change _ = (update s.queues (z.index pe ch) q (z.index pe ch)).maxWritePtr
      rw [update_self]
  · rcases hsent hc' with hold | ⟨rfl, hmk, hpe, hch, -⟩
    · rcases h.watched hold with hle' | hd | hmk | ⟨v', hv'⟩
      · exact .inl (hle'.trans (hr _).ge)
      · exact .inr (.inl hd)
      · have hvw : v ≠ w := by
          rintro rfl
          rw [hw] at hmk
          cases hmk
        exact .inr (.inr (.inl ((hne hvw).trans hmk)))
      · have hvw : v' ≠ w := by
          rintro rfl
          rw [hw] at hv'
          exact hv'
        refine .inr (.inr (.inr ⟨v', ?_⟩))
        change Watching (update s.waves w y v') _ _
        rwa [hne hvw]
    · refine .inr (.inr (.inl ?_))
      rw [hpe, hch]
      exact hself.trans hmk
  · by_cases hvw : v = w
    · subst hvw
      change Drains (update s.waves v y v) scope at hd
      rw [hself] at hd
      exact absurd hd (hnoy scope)
    · change Drains (update s.waves w y v) scope at hd
      change _ ∨ Watching (update s.waves w y v) _ _
      rw [hne hvw] at hd ⊢
      have hold : c' ∈ s.sent v := (hsent hc').resolve_right fun hnew => hvw hnew.1
      exact (h.own hd hold hcov).imp_left fun hle' => hle'.trans (hr _).ge

theorem put (h : Inv z s) (hring : ∀ i, SdmaRing.Inv (s.ring z i))
    (hw : s.waves w = .copying pe ch c) (hc : ∀ u, c ≠ .committed u) (hap : Apart z s (.put w a))
    (hs : producerStep (s.queues (z.index pe ch)) c a = some x) :
    Inv z ((s.setQueue (z.index pe ch) x.1).setWave w (.copying pe ch x.2)) := by
  obtain ⟨hrptr, hmax, hcom⟩ := producerStep_counts hs hc
  have hmono := committed_mono hring hw hs hc
  refine h.afterPut hw hrptr hmax.ge (hmax.le.trans ((h.max_le _).trans hmono))
    (.inl ⟨x.2, rfl⟩) (fun u hx => ?_) ?_ fun hc' => .inl hc'
  all_goals grind [Apart, Wave.index]

theorem publish (h : Inv z s) {u : ℕ} (hw : s.waves w = .copying pe ch (.committed u)) :
    Inv z { (s.setQueue (z.index pe ch)
        { s.queues (z.index pe ch) with maxWritePtr := u }).setWave w (.marking pe ch) with
      sent := update s.sent w (⟨pe, ch, u⟩ :: s.sent w) } := by
  have hu := h.late hw
  refine h.afterPut hw rfl ((h.max_le _).trans hu.ge) hu.le (.inr rfl) nofun (.inl rfl)
    fun {v c'} hc' => ?_
  grind

theorem step (h : Inv z s) (hring : ∀ i, SdmaRing.Inv (s.ring z i)) (hap : Apart z s e)
    (hs : SdmaQuiet.step z s e = some t) : Inv z t := by
  cases e with
  | copy w pe ch packets =>
    rw [SdmaQuiet.step] at hs
    split at hs
    next hw =>
      split at hs
      next hlt =>
        obtain ⟨x, hx, rfl⟩ := Option.map_eq_some_iff.mp hs
        rw [producerStep] at hx
        split at hx
        · cases hx
          have hq : s.setQueue (z.index pe ch) (s.queues (z.index pe ch)) = s := by
            rw [State.setQueue, update_eq_self]
          rw [hq]
          exact h.copy hw hlt.1 hlt.2
        · cases hx
      · cases hs
    · cases hs
  | put w a =>
    rw [SdmaQuiet.step] at hs
    split at hs
    · cases hs
    next hno hw =>
      obtain ⟨x, hx, rfl⟩ := Option.map_eq_some_iff.mp hs
      exact h.put hring hw hno hap hx
    · cases hs
  | publish w =>
    grind [step, publish]
  | mark w =>
    grind [step, mark]
  | call w scope tests =>
    rw [SdmaQuiet.step] at hs
    split at hs
    next hw =>
      cases hs
      have hx : (if tests then Wave.looking scope else .taking scope) = .looking scope ∨
          (if tests then Wave.looking scope else .taking scope) = .taking scope := by
        cases tests <;> simp
      exact h.call hw hx
    · cases hs
  | look w =>
    grind [step, look]
  | take w =>
    grind [Apart, step, Wave.mask, take]
  | load w =>
    rw [SdmaQuiet.step] at hs
    split at hs
    next hw =>
      obtain ⟨j, -, rfl⟩ := Option.map_eq_some_iff.mp hs
      exact h.load hw
    · cases hs
  | poll w =>
    grind [step, poll]
  | read i n =>
    grind [step, read]

theorem initial (z : Channels) : Inv z (SdmaQuiet.initial N) :=
  ⟨fun _ => le_rfl, nofun, nofun, nofun, nofun, nofun, fun hd => hd.elim⟩

theorem returned (h : Inv z s) (hap : Apart z s e) {scope : Scope}
    (hret : returning z s e = some (w, scope)) {c : Copy} (hc : c ∈ s.sent w)
    (hcov : scope.Covers c) : c.stop ≤ (s.ringOf z c).rptr := by
  have hnone : ∀ {a : BitVec 64} {i : ℕ}, a = 0#64 → a.getLsbD i ≠ true := by
    rintro a i rfl
    simp
  have hlook : (s.waves w = .looking scope ∨ s.waves w = .taking scope) →
      (∀ v, v ≠ w → (s.waves v).dirty &&& z.mask scope = 0#64) →
      s.sdmaDirty &&& z.mask scope = 0#64 → c.stop ≤ (s.ringOf z c).rptr := by
    intro hw hap' hzero
    refine (h.dirty_of_sent (fun i u hv => ?_) (fun pe ch hm => ?_) hap' hc hcov).resolve_right
      (hnone hzero)
    all_goals grind [Watching]
  rw [returning.eq_def] at hret
  split at hret
  next v =>
    grind [Apart, Wave.mask]
  next v =>
    grind [Apart, Wave.mask]
  next v =>
    split at hret
    next hw =>
      split at hret
      next hcond =>
        cases hret
        have hdr : Drains (s.waves w) scope := by rw [hw]; rfl
        grind [Inv, Watching.polled]
      · cases hret
    · cases hret
  · cases hret

end Inv

def single : Channels := ⟨1, 2, Nat.one_pos, by decide, by decide⟩

def copies (w : Fin N) : List (Event N) :=
  [.copy w 0 0 [[7]]] ++ [.load, .test, .cas, .store, .next, .turn, .storeWptr, .ring,
    .commit].map (.put w) ++ [.publish w, .mark w]

section DirtyBits

def quietAll : ℕ → BitVec 64 → List ℕ
  | 0, _ => []
  | fuel + 1, dirty =>
    match nextBit dirty with
    | some i => i :: quietAll fuel (dirty &&& ~~~ bit i)
    | none => []

structure DirtyBits (c : HostInit) : Prop where
  inside : ∀ p, c.Pair p → c.index p.1 p.2 < 64
  injective : ∀ p q, c.Pair p → c.Pair q →
    bit (c.index p.1 p.2) = bit (c.index q.1 q.2) → p = q
  mask : ∀ pe < c.shmSize, ∀ i, (c.peMask pe).getLsbD i = true ↔
    ∃ ch < c.numChannels, i = c.index pe ch
  handles : ∀ p, c.Pair p → ∀ dirty : BitVec 64, dirty.getLsbD (c.index p.1 p.2) = true →
    ∃ i ∈ quietAll 64 dirty, c.handle i = p

variable {c : HostInit} {p : ℕ × ℕ} {i : ℕ}

theorem handle_index (hp : c.Pair p) : c.handle (c.index p.1 p.2) = p := by
  have hdiv : (p.1 * c.numChannels + p.2) / c.numChannels = p.1 := by
    rw [Nat.mul_comm, Nat.mul_add_div c.pos, Nat.div_eq_of_lt hp.2, Nat.add_zero]
  have hmod : (p.1 * c.numChannels + p.2) % c.numChannels = p.2 := by
    rw [Nat.mul_comm, Nat.mul_add_mod, Nat.mod_eq_of_lt hp.2]
  exact Prod.ext hdiv hmod

/-- The loop takes the bits from the lowest on, so `64 - j` turns are left once all below `j`
are cleared. -/
theorem mem_quietAll {fuel : ℕ} {dirty : BitVec 64} (hi : dirty.getLsbD i = true)
    (hlow : ∀ j, dirty.getLsbD j = true → 64 ≤ j + fuel) : i ∈ quietAll fuel dirty := by
  have hlt := BitVec.lt_of_getLsbD hi
  induction fuel generalizing dirty with
  | zero => exact absurd (hlow i hi) (by omega)
  | succ fuel ih =>
    rw [quietAll]
    cases hn : nextBit dirty with
    | none =>
      have hnone := List.find?_eq_none.mp hn i (List.mem_range.mpr hlt)
      exact absurd hi hnone
    | some j =>
      obtain ⟨hj, hmem, hfirst⟩ := List.find?_range_eq_some.mp hn
      by_cases hij : i = j
      · exact hij ▸ List.mem_cons_self
      refine List.mem_cons_of_mem _ (ih ?_ fun k hk => ?_)
      · rw [BitVec.getLsbD_and, BitVec.getLsbD_not, getLsbD_bit (List.mem_range.mp hmem)]
        simp [hi, hlt, Ne.symm hij]
      · rw [BitVec.getLsbD_and, BitVec.getLsbD_not, getLsbD_bit (List.mem_range.mp hmem)] at hk
        simp only [Bool.and_eq_true, Bool.not_eq_true', decide_eq_true_eq,
          decide_eq_false_iff_not] at hk
        have hle : j ≤ k := by
          by_contra hlt
          have := hfirst k (by omega)
          simp [hk.1] at this
        have := hlow j hj
        omega

/-- The dirty bits of the channels are the word's bits exactly when the word has room for them,
which the host never checks. -/
theorem dirty_bits_iff (c : HostInit) : DirtyBits c ↔ c.shmSize * c.numChannels ≤ 64 := by
  constructor
  · intro h
    rcases Nat.eq_zero_or_pos c.shmSize with hz | hpos
    · simp [hz]
    have hlast : (c.shmSize - 1) * c.numChannels + (c.numChannels - 1) < 64 :=
      h.inside (_, _) ⟨Nat.sub_lt hpos Nat.one_pos, Nat.sub_lt c.pos Nat.one_pos⟩
    rw [← Nat.sub_one_add_one hpos.ne', Nat.succ_mul]
    omega
  · intro hfits
    have hin : ∀ p, c.Pair p → c.index p.1 p.2 < 64 := fun p hp =>
      index_lt (z := ⟨c.numChannels, c.shmSize, c.pos, c.le, hfits⟩) hp.1 hp.2
    refine ⟨hin, fun p q hp hq hbit => ?_, fun pe hpe i => ?_, fun p hp dirty hd => ?_⟩
    · have hsame := congrArg (fun b => b.getLsbD (c.index p.1 p.2)) hbit
      simp only [getLsbD_bit (hin p hp), getLsbD_bit (hin q hq), decide_true,
        true_eq_decide_iff] at hsame
      rw [← handle_index hp, ← handle_index hq, hsame]
    · by_cases hi : i < 64
      · exact getLsbD_mask_iff hi pe
      · refine iff_of_false (fun h => hi (BitVec.lt_of_getLsbD h)) ?_
        rintro ⟨ch, hch, rfl⟩
        exact hi (hin (pe, ch) ⟨hpe, hch⟩)
    · exact ⟨_, mem_quietAll hd fun j _ => Nat.le_add_left _ _, handle_index hp⟩

theorem eight_by_eight_bits : DirtyBits ⟨8, 8, by decide, by decide⟩ :=
  (dirty_bits_iff _).mpr (by decide)

def nineByEight : HostInit := ⟨8, 9, by decide, by decide⟩

/-- With nine local PEs and eight channels the ninth PE's bits are outside the word. -/
theorem ninth_pe_has_no_bit : nineByEight.Pair (8, 0) ∧ nineByEight.index 8 0 = 64 ∧
    bit (nineByEight.index 8 0) = 0#64 ∧ nineByEight.peMask 8 = 0#64 := by
  refine ⟨⟨?_, ?_⟩, ?_, ?_, ?_⟩ <;> decide

end DirtyBits

end SdmaQuiet
