import Rocshmem.GuardedMachines

/-! Results that a device delivers into shared slots. A request draws a ticket and with it a
slot, the device fills the slot when it completes the request, and the caller reads the slot
after a wait of its own. Nothing gives a slot back: the next ticket of a slot takes it again. -/
namespace ResultSlots

open Function GuardedMachines

section Slots

variable {τ κ V : Type*}

structure Slots (τ κ V : Type*) where
  drawn : List τ
  content : κ → V
  fetched : τ → Option V
  answer : τ → Option V

namespace Slots

def initial [Inhabited V] : Slots τ κ V := ⟨[], fun _ => default, fun _ => none, fun _ => none⟩

def draw (r : Slots τ κ V) (t : τ) : Slots τ κ V := { r with drawn := t :: r.drawn }

def fill [DecidableEq τ] [DecidableEq κ] (slot : τ → κ) (r : Slots τ κ V) (t : τ) (v : V) :
    Slots τ κ V :=
  { r with
    content := update r.content (slot t) v
    fetched := update r.fetched t (some v) }

def read [DecidableEq τ] (slot : τ → κ) (r : Slots τ κ V) (t : τ) : Slots τ κ V :=
  { r with answer := update r.answer t (some (r.content (slot t))) }

def Unread (r : Slots τ κ V) (t : τ) : Prop := t ∈ r.drawn ∧ r.answer t = none

structure Sound (slot : τ → κ) (r : Slots τ κ V) : Prop where
  origin : ∀ t v, r.fetched t = some v → t ∈ r.drawn
  exclusive : ∀ c t, r.Unread c → r.Unread t → slot c = slot t → c = t
  delivered : ∀ t v, r.Unread t → r.fetched t = some v → r.content (slot t) = v
  answers : ∀ t v, r.answer t = some v → r.fetched t = some v

variable {slot : τ → κ} {r : Slots τ κ V}

theorem sound_initial [Inhabited V] : Sound slot (initial : Slots τ κ V) :=
  ⟨fun _ _ h => (by cases h), fun _ _ h => (by cases h.1), fun _ _ h => (by cases h.1),
    fun _ _ h => (by cases h)⟩

variable {t : τ}

theorem Sound.draw (h : Sound slot r) (hfree : ∀ c, r.Unread c → c ≠ t → slot c ≠ slot t) :
    Sound slot (r.draw t) := by
  refine ⟨fun c v hc => List.mem_cons_of_mem _ (h.origin c v hc), fun a b ha hb hslot => ?_,
    fun c v hc hv => ?_, h.answers⟩
  all_goals grind [Sound, Unread, draw]

variable [DecidableEq τ]

theorem Sound.fill [DecidableEq κ] {v : V} (h : Sound slot r) (ht : t ∈ r.drawn)
    (hnew : r.fetched t = none) : Sound slot (r.fill slot t v) := by
  have hunread : r.Unread t := by
    refine ⟨ht, ?_⟩
    cases ha : r.answer t with
    | none => rfl
    | some u => rw [h.answers t u ha] at hnew; cases hnew
  refine ⟨fun c u hc => ?_, h.exclusive, fun c u hc hu => ?_, fun c u hc => ?_⟩
  · by_cases hct : c = t
    · exact hct ▸ ht
    · exact h.origin c u ((update_of_ne hct _ _).symm.trans hc)
  · simp only [Slots.fill] at hu ⊢
    grind [Sound, Unread, fill]
  · have hct : c ≠ t := by
      rintro rfl
      cases hunread.2.symm.trans hc
    exact (update_of_ne hct _ _).trans (h.answers c u hc)

theorem unread_read {c : τ} (h : (r.read slot t).Unread c) : c ≠ t ∧ r.Unread c := by
  have hct : c ≠ t := by
    rintro rfl
    have := h.2
    simp [Slots.read] at this
  exact ⟨hct, h.1, (update_of_ne hct _ _).symm.trans h.2⟩

theorem Sound.read {v : V} (h : Sound slot r) (ht : r.Unread t) (hv : r.fetched t = some v) :
    Sound slot (r.read slot t) := by
  refine ⟨h.origin, fun a b ha hb => h.exclusive a b (unread_read ha).2 (unread_read hb).2,
    fun c u hc => h.delivered c u (unread_read hc).2, fun c u hc => ?_⟩
  simp only [Slots.read] at hc ⊢
  by_cases hct : c = t
  · subst hct
    rw [update_self] at hc
    rw [hv, ← hc, h.delivered c v ht hv]
  · rw [update_of_ne hct] at hc
    exact h.answers c u hc

end Slots

end Slots

section Tickets

/-- Request `w` has the ticket `ticket w`. The requests below `posted` are counted; the next
`group` ones are being written, in any order, and take the tickets from `counter` on. -/
structure Numbered (ticket : ℕ → Option ℕ) (counter posted group : ℕ) : Prop where
  counted : ∀ w t, ticket w = some t → w < posted → t < counter
  drawing : ∀ w t, ticket w = some t → posted ≤ w →
    w < posted + group ∧ t = counter + (w - posted)
  injective : ∀ w w' t, ticket w = some t → ticket w' = some t → w = w'

namespace Numbered

variable {ticket : ℕ → Option ℕ} {counter posted group : ℕ}

theorem initial : Numbered (fun _ => none) counter posted group :=
  ⟨fun _ _ h => (by cases h), fun _ _ h => (by cases h), fun _ _ _ h => (by cases h)⟩

theorem draw_new {lane w t : ℕ}
    (ht : update ticket (posted + lane) (some (counter + lane)) w = some t) :
    w = posted + lane ∧ t = counter + lane ∨ ticket w = some t := by
  grind

variable (h : Numbered ticket counter posted group)
include h

theorem lt {w t : ℕ} (ht : ticket w = some t) : t < counter + group := by
  grind [Numbered]

theorem draw_keeps (lane : ℕ) {w t : ℕ} (ht : ticket w = some t) :
    update ticket (posted + lane) (some (counter + lane)) w = some t := by
  grind [Numbered]

theorem draw {lane : ℕ} (hlane : lane < group) :
    Numbered (update ticket (posted + lane) (some (counter + lane)))
      counter posted group := by
  -- the ticket of a request that has one is the only one it could have
  have hsame : ∀ w, ticket w = some (counter + lane) → w = posted + lane := by
    grind [Numbered]
  refine ⟨fun w t ht hw => ?_, fun w t ht hw => ?_, fun w w' t ht ht' => ?_⟩
  all_goals grind [Numbered]

variable {posted' group' : ℕ}

theorem count (hle : posted + group ≤ posted') :
    Numbered ticket (counter + group) posted' group' := by
  refine ⟨fun w t ht _ => h.lt ht, fun w t ht hw => ?_, h.injective⟩
  have := (h.drawing w t ht (by omega)).1
  omega

omit h in
theorem idle (h : Numbered ticket counter posted 0) (hle : posted ≤ posted') :
    Numbered ticket counter posted' group' :=
  h.count hle

end Numbered

end Tickets

section Queues

variable {σ ε κ V : Type*}

inductive Effect where
  | draw (lane : ℕ)
  | count
  | complete
  | call (i : ℕ)
  | other
  deriving DecidableEq, Repr

namespace Effect

def posts : Effect → Bool
  | .draw _ | .count | .other => true
  | .complete | .call _ => false

def calls : Effect → Option ℕ
  | .call i => some i
  | .draw _ | .count | .complete | .other => none

end Effect

/-- A queue of numbered requests that complete in order. `group` counts the tickets of the
requests that are being written. Wait `i` covers the requests posted before its call. -/
structure Queue (σ ε : Type*) where
  machine : Machine σ ε
  posted : σ → ℕ
  completed : σ → ℕ
  group : σ → ℕ
  effect : σ → ε → Effect
  covers : σ → ℕ → Option ℕ
  returned : σ → ℕ → Bool

structure State (σ κ V : Type*) where
  queue : σ
  counter : ℕ
  ticket : ℕ → Option ℕ
  waits : ℕ → Option ℕ
  results : Slots ℕ κ V

inductive Event (ε V : Type*) where
  | post (e : ε)
  | complete (e : ε) (old : V)
  | call (e : ε) (tickets : List ℕ)
  | read (t : ℕ)

namespace Queue

variable (Q : Queue σ ε)

def Enabled (s : State σ κ V) : Event ε V → Prop
  | .post e => Q.machine.enabled s.queue e ∧ (Q.effect s.queue e).posts = true
  | .complete e _ => Q.machine.enabled s.queue e ∧ Q.effect s.queue e = .complete
  | .call e tickets => Q.machine.enabled s.queue e ∧ (Q.effect s.queue e).calls.isSome = true ∧
      ∀ t ∈ tickets, s.waits t = none ∧ ∃ w < Q.posted s.queue, s.ticket w = some t
  | .read t => (s.waits t).any (Q.returned s.queue) = true ∧ s.results.answer t = none

instance [∀ s e, Decidable (Q.machine.enabled s e)] [DecidableEq V] (s : State σ κ V)
    (e : Event ε V) : Decidable (Q.Enabled s e) := by
  cases e <;> dsimp only [Enabled] <;> infer_instance

def post (s : State σ κ V) (e : ε) : State σ κ V :=
  match Q.effect s.queue e with
  | .draw lane =>
    { s with
      queue := Q.machine.next s.queue e
      ticket := update s.ticket (Q.posted s.queue + lane) (some (s.counter + lane))
      results := s.results.draw (s.counter + lane) }
  | .count =>
    { s with queue := Q.machine.next s.queue e, counter := s.counter + Q.group s.queue }
  | .complete | .call _ | .other => { s with queue := Q.machine.next s.queue e }

variable [DecidableEq κ] (slot : ℕ → κ)

def deliver (s : State σ κ V) (old : V) : Slots ℕ κ V :=
  match s.ticket (Q.completed s.queue) with
  | some t => s.results.fill slot t old
  | none => s.results

def next (s : State σ κ V) : Event ε V → State σ κ V
  | .post e => Q.post s e
  | .complete e old =>
    { s with queue := Q.machine.next s.queue e, results := Q.deliver slot s old }
  | .call e tickets =>
    { s with
      queue := Q.machine.next s.queue e
      waits := fun t => if t ∈ tickets then (Q.effect s.queue e).calls else s.waits t }
  | .read t => { s with results := s.results.read slot t }

def system [Inhabited V] : Machine (State σ κ V) (Event ε V) :=
  ⟨⟨Q.machine.initial, 0, fun _ => none, fun _ => none, .initial⟩, Q.Enabled, Q.next slot⟩

end Queue

def NotLapped (n : ℕ) (s : State σ κ V) : Effect → Prop
  | .draw lane => ∀ c ∈ s.results.drawn, s.results.answer c = none → s.counter + lane < c + n
  | .count | .complete | .call _ | .other => True

instance [DecidableEq V] (n : ℕ) (s : State σ κ V) (e : Effect) : Decidable (NotLapped n s e) := by
  cases e <;> dsimp only [NotLapped] <;> infer_instance

def Queue.Paced (Q : Queue σ ε) (ok : σ → ε → Prop) (n : ℕ) (s : State σ κ V) :
    Event ε V → Prop
  | .post e => ok s.queue e ∧ NotLapped n s (Q.effect s.queue e)
  | .complete e _ | .call e _ => ok s.queue e
  | .read _ => True

instance [DecidableEq V] (Q : Queue σ ε) (ok : σ → ε → Prop) [∀ s e, Decidable (ok s e)] (n : ℕ)
    (s : State σ κ V) (e : Event ε V) : Decidable (Q.Paced ok n s e) := by
  cases e <;> dsimp only [Queue.Paced] <;> infer_instance

namespace Queue

variable (Q : Queue σ ε)

structure Same (s s' : σ) : Prop where
  posted : Q.posted s' = Q.posted s
  group : Q.group s' = Q.group s

def Between (s s' : σ) : Prop :=
  Q.completed s' = Q.completed s ∧
    (Q.Same s s' ∨ Q.group s = 0 ∧ Q.posted s ≤ Q.posted s')

def Acts (s s' : σ) : Effect → Prop
  | .draw lane => lane < Q.group s ∧ Q.completed s' = Q.completed s ∧ Q.Same s s'
  | .count => Q.completed s' = Q.completed s ∧ Q.posted s + Q.group s ≤ Q.posted s'
  | .complete => Q.completed s' = Q.completed s + 1 ∧ Q.Same s s'
  | .call i => Q.covers s' i = some (Q.posted s) ∧ Q.Between s s'
  | .other => Q.Between s s'

/-- A queue whose steps act as their effects say while `I` holds, and whose waits return when
the requests they cover are complete. -/
structure Lawful (ok : σ → ε → Prop) (I : σ → Prop) (n : ℕ) : Prop where
  initial : I Q.machine.initial
  step : ∀ s e, I s → Q.machine.enabled s e → ok s e → I (Q.machine.next s e)
  ordered : ∀ s, I s → Q.completed s ≤ Q.posted s
  small : ∀ s, I s → Q.group s ≤ n
  acts : ∀ s e, I s → Q.machine.enabled s e → Q.Acts s (Q.machine.next s e) (Q.effect s e)
  keeps : ∀ s e i b, Q.machine.enabled s e → Q.covers s i = some b →
    Q.covers (Q.machine.next s e) i = some b
  drained : ∀ s i b, I s → Q.returned s i = true → Q.covers s i = some b → b ≤ Q.completed s

structure Invariant (I : σ → Prop) (slot : ℕ → κ) (s : State σ κ V) : Prop where
  queue : I s.queue
  numbered : Numbered s.ticket s.counter (Q.posted s.queue) (Q.group s.queue)
  drawn : ∀ t, t ∈ s.results.drawn ↔ ∃ w, s.ticket w = some t
  fetched : ∀ w t, s.ticket w = some t →
    (w < Q.completed s.queue ↔ (s.results.fetched t).isSome = true)
  waiting : ∀ t i, s.waits t = some i →
    ∃ w b, s.ticket w = some t ∧ w < b ∧ Q.covers s.queue i = some b
  sound : Slots.Sound slot s.results

variable {Q}

section Steps

variable {ok : σ → ε → Prop} {I : σ → Prop} {n : ℕ} {slot : ℕ → κ} {s : State σ κ V} {e : ε}

theorem Between.numbered {u u' : σ} (hb : Q.Between u u') {ticket : ℕ → Option ℕ} {counter : ℕ}
    (h : Numbered ticket counter (Q.posted u) (Q.group u)) :
    Numbered ticket counter (Q.posted u') (Q.group u') := by
  rcases hb.2 with hsame | ⟨hzero, hle⟩
  · rw [hsame.posted, hsame.group]
    exact h
  · rw [hzero] at h
    exact h.idle hle

section

variable (hl : Q.Lawful ok I n)
include hl

theorem Lawful.waiting (h : Q.Invariant I slot s) (he : Q.machine.enabled s.queue e) {t i : ℕ}
    (ht : s.waits t = some i) :
    ∃ w b, s.ticket w = some t ∧ w < b ∧ Q.covers (Q.machine.next s.queue e) i = some b := by
  obtain ⟨w, b, hw, hlt, hb⟩ := h.waiting t i ht
  exact ⟨w, b, hw, hlt, hl.keeps _ _ _ _ he hb⟩

theorem Lawful.free (h : Q.Invariant I slot s) (hslot : ∀ c t, c < t → t < c + n → slot c ≠ slot t)
    {lane : ℕ} (hp : NotLapped n s (.draw lane)) {c : ℕ} (hc : s.results.Unread c)
    (hne : c ≠ s.counter + lane) : slot c ≠ slot (s.counter + lane) := by
  have hlap := hp c hc.1 hc.2
  obtain ⟨w, hw⟩ := (h.drawn c).mp hc.1
  have hlt := h.numbered.lt hw
  have hsmall := hl.small s.queue h.queue
  rcases Nat.lt_or_gt_of_ne hne with hbelow | habove
  · exact hslot c _ hbelow hlap
  · exact (hslot _ c habove (by omega)).symm

theorem draw_preserves (hslot : ∀ c t, c < t → t < c + n → slot c ≠ slot t)
    (h : Q.Invariant I slot s) (he : Q.machine.enabled s.queue e) (hok : ok s.queue e) {lane : ℕ}
    (heff : Q.effect s.queue e = .draw lane) (hp : NotLapped n s (.draw lane)) :
    Q.Invariant I slot (Q.post s e) := by
  have hacts := hl.acts s.queue e h.queue he
  rw [heff] at hacts
  obtain ⟨hlane, hcompleted, hsame⟩ := hacts
  have hordered := hl.ordered s.queue h.queue
  -- a ticket that was delivered belongs to a request that is counted
  have hnew : s.results.fetched (s.counter + lane) = none := by
    cases hf : s.results.fetched (s.counter + lane) with
    | none => rfl
    | some v =>
      obtain ⟨w, hw⟩ := (h.drawn _).mp (h.sound.origin _ v hf)
      have hdone := (h.fetched w _ hw).mpr (by rw [hf]; rfl)
      have := h.numbered.counted w _ hw (by omega)
      omega
  unfold post
  rw [heff]
  refine ⟨hl.step _ _ h.queue he hok, ?_, fun t => ?_, fun w t hw => ?_, fun t i ht => ?_,
    h.sound.draw fun c hc hne => hl.free h hslot hp hc hne⟩
  · dsimp only
    rw [hsame.posted, hsame.group]
    exact h.numbered.draw hlane
  · dsimp only [Slots.draw]
    rw [List.mem_cons, h.drawn]
    constructor
    · rintro (rfl | ⟨w, hw⟩)
      · exact ⟨_, update_self _ _ _⟩
      · exact ⟨w, h.numbered.draw_keeps lane hw⟩
    · rintro ⟨w, hw⟩
      exact (Numbered.draw_new hw).imp And.right fun hold => ⟨w, hold⟩
  · dsimp only [Slots.draw] at hw ⊢
    rw [hcompleted]
    rcases Numbered.draw_new hw with ⟨rfl, rfl⟩ | hold
    · rw [hnew]
      simp only [Option.isSome_none, Bool.false_eq_true, iff_false]
      omega
    · exact h.fetched w t hold
  · obtain ⟨w, b, hw, hlt, hb⟩ := hl.waiting h he ht
    exact ⟨w, b, h.numbered.draw_keeps lane hw, hlt, hb⟩

theorem Lawful.quietly (h : Q.Invariant I slot s) (he : Q.machine.enabled s.queue e)
    (hok : ok s.queue e) {counter : ℕ}
    (hcompleted : Q.completed (Q.machine.next s.queue e) = Q.completed s.queue)
    (hnumbered : Numbered s.ticket counter (Q.posted (Q.machine.next s.queue e))
      (Q.group (Q.machine.next s.queue e)))
    : Q.Invariant I slot { s with queue := Q.machine.next s.queue e, counter := counter } := by
  grind [Invariant, Lawful]

theorem post_preserves (hslot : ∀ c t, c < t → t < c + n → slot c ≠ slot t)
    (h : Q.Invariant I slot s) (he : Q.Enabled s (.post e)) (hok : Q.Paced ok n s (.post e)) :
    Q.Invariant I slot (Q.post s e) := by
  obtain ⟨hen, hposts⟩ := he
  obtain ⟨hok, hp⟩ := hok
  have hacts := hl.acts s.queue e h.queue hen
  cases heff : Q.effect s.queue e with
  | draw lane => exact draw_preserves hl hslot h hen hok heff (heff ▸ hp)
  | count =>
    rw [heff] at hacts
    unfold post
    rw [heff]
    exact hl.quietly h hen hok hacts.1 (h.numbered.count hacts.2)
  | other =>
    rw [heff] at hacts
    unfold post
    rw [heff]
    exact hl.quietly h hen hok hacts.1 (Between.numbered hacts h.numbered)
  | complete | call _ =>
    rw [heff] at hposts
    cases hposts

theorem Lawful.delivered (h : Q.Invariant I slot s) {t : ℕ} (he : Q.Enabled s (.read t)) :
    s.results.Unread t ∧ ∃ v, s.results.fetched t = some v := by
  obtain ⟨i, hi, hret⟩ := (Option.any_eq_true _ _).mp he.1
  obtain ⟨w, b, hw, hlt, hb⟩ := h.waiting t i hi
  have hle := hl.drained s.queue i b h.queue hret hb
  have hsome := (h.fetched w t hw).mp (by omega)
  exact ⟨⟨(h.drawn t).mpr ⟨w, hw⟩, he.2⟩, Option.isSome_iff_exists.mp hsome⟩

end

variable [DecidableEq κ]

section

variable (hl : Q.Lawful ok I n) (h : Q.Invariant I slot s)
include hl h

theorem complete_preserves {old : V} (he : Q.Enabled s (.complete e old)) (hok : ok s.queue e) :
    Q.Invariant I slot (Q.next slot s (.complete e old)) := by
  obtain ⟨hen, heff⟩ := he
  have hacts := hl.acts s.queue e h.queue hen
  rw [heff] at hacts
  obtain ⟨hcompleted, hsame⟩ := hacts
  have hnumbered : Numbered s.ticket s.counter (Q.posted (Q.machine.next s.queue e))
      (Q.group (Q.machine.next s.queue e)) := by
    rw [hsame.posted, hsame.group]
    exact h.numbered
  have hqueue := hl.step _ _ h.queue hen hok
  dsimp only [next, deliver]
  cases hticket : s.ticket (Q.completed s.queue) with
  | none =>
    grind [Same, Invariant, Lawful.waiting]
  | some t₀ =>
    have hnone : s.results.fetched t₀ = none := by
      have := h.fetched _ t₀ hticket
      simpa using this
    refine ⟨hqueue, hnumbered, h.drawn, fun w t hw => ?_, fun t i ht => hl.waiting h hen ht,
      h.sound.fill ((h.drawn t₀).mpr ⟨_, hticket⟩) hnone⟩
    dsimp only [Slots.fill]
    rw [hcompleted]
    by_cases ht : t = t₀
    · subst ht
      have hw' := h.numbered.injective _ _ _ hw hticket
      rw [update_self]
      simp [hw']
    · grind [Invariant]

theorem call_preserves {tickets : List ℕ} (he : Q.Enabled s (.call e tickets)) (hok : ok s.queue e)
    : Q.Invariant I slot (Q.next slot s (.call e tickets)) := by
  obtain ⟨hen, hcalls, htickets⟩ := he
  have hacts := hl.acts s.queue e h.queue hen
  cases heff : Q.effect s.queue e with
  | call i =>
    rw [heff] at hacts
    obtain ⟨hcovers, hbetween⟩ := hacts
    have hq := hl.quietly h hen hok hbetween.1 (Between.numbered hbetween h.numbered)
    refine { hq with waiting := fun t j ht => ?_ }
    simp only [next, heff, Effect.calls] at ht
    split at ht
    · rename_i hmem
      obtain ⟨-, w, hlt, hw⟩ := htickets t hmem
      cases ht
      exact ⟨w, _, hw, hlt, hcovers⟩
    · exact hq.waiting t j ht
  | draw _ | count | complete | other =>
    rw [heff] at hcalls
    cases hcalls

theorem read_preserves {t : ℕ} (he : Q.Enabled s (.read t)) :
    Q.Invariant I slot (Q.next slot s (.read t)) := by
  obtain ⟨hunread, v, hv⟩ := hl.delivered h he
  exact { h with sound := h.sound.read hunread hv }

end

theorem run_sound [Inhabited V] (hl : Q.Lawful ok I n)
    (hslot : ∀ c t, c < t → t < c + n → slot c ≠ slot t)
    (h : (Q.system slot).Run (Q.Paced ok n) s) : Slots.Sound slot s.results := by
  have hinv : Q.Invariant I slot s := by
    refine h.induct ?_ fun s e ih he hok => ?_
    · exact ⟨hl.initial, Numbered.initial, fun t => by simp [system, Slots.initial],
        fun _ _ hw => (by cases hw), fun _ _ ht => (by cases ht), Slots.sound_initial⟩
    · cases e with
      | post e => exact post_preserves hl hslot ih he hok
      | complete e old => exact complete_preserves hl ih he hok
      | call e tickets => exact call_preserves hl ih he hok
      | read t => exact read_preserves hl ih he
  exact hinv.sound

end Steps

end Queue

end Queues

end ResultSlots
