import Mathlib

/-! Programs of a fixed set of events over a shared memory. An event fires once, after the
events it depends on and when its guard holds of the memory. A certificate names for every
waiting event the events that it is meant to wait for and for every store the value that it
is meant to write. The obligations of a sound certificate speak about sets of events that
are closed under both orders; they give the contents of the memory in every run. -/
namespace MatchedPrograms

open List

variable {E C V : Type*}

inductive Effect (C V : Type*) where
  | skip
  | store (c : C) (f : (C → V) → V)
  | add (c : C) (v : V)

def Effect.apply [DecidableEq C] [Add V] (m : C → V) : Effect C V → C → V
  | .skip => m
  | .store c f => Function.update m c (f m)
  | .add c v => Function.update m c (m c + v)

def Effect.amount [Zero V] : Effect C V → V
  | .add _ v => v
  | _ => 0

def Effect.target : Effect C V → Option C
  | .skip => none
  | .store c _ => some c
  | .add c _ => some c

structure System (E C V : Type*) where
  event : E → Prop
  pre : E → E → Prop
  guard : E → (C → V) → Prop
  action : E → Effect C V

namespace System

def StoresTo (S : System E C V) (c : C) (e : E) : Prop := ∃ f, S.action e = .store c f

def AddsTo (S : System E C V) (c : C) (e : E) : Prop := ∃ v, S.action e = .add c v

def Writes (S : System E C V) (c : C) (e : E) : Prop := S.StoresTo c e ∨ S.AddsTo c e

theorem Writes.target {S : System E C V} {c : C} {e : E} (h : S.Writes c e) :
    (S.action e).target = some c := by
  rcases h with ⟨f, hf⟩ | ⟨v, hv⟩
  · rw [hf, Effect.target]
  · rw [hv, Effect.target]

def Ready (S : System E C V) (X : Set E) (e : E) : Prop := ∀ a, S.pre a e → a ∈ X

def anyStep : Set E → (C → V) → E → Prop := fun _ _ _ => True

inductive Run [DecidableEq C] [Add V] (S : System E C V) (ok : Set E → (C → V) → E → Prop)
    (init : C → V) : Set E → (C → V) → Prop where
  | start : Run S ok init ∅ init
  | fire {X m e} : Run S ok init X m → S.event e → e ∉ X → S.Ready X e → S.guard e m →
      ok X m e → Run S ok init (insert e X) ((S.action e).apply m)

section Runs

variable [DecidableEq C] [Add V] {S : System E C V} {ok ok' : Set E → (C → V) → E → Prop}
  {init : C → V} {X : Set E} {m : C → V}

theorem Run.mono (hok : ∀ X m e, S.event e → S.Ready X e → ok X m e → ok' X m e)
    (h : S.Run ok init X m) : S.Run ok' init X m := by
  induction h with
  | start => exact .start
  | fire _ he hX hr hg h ih => exact ih.fire he hX hr hg (hok _ _ _ he hr h)

theorem Run.ok_of_mem (h : S.Run ok init X m) : ∀ e ∈ X, ∃ Y m', Y ⊆ X ∧ ok Y m' e := by
  induction h with
  | start => exact fun e he => he.elim
  | fire _ _ _ _ _ hok ih =>
    rintro e (rfl | he)
    · exact ⟨_, _, Set.subset_insert _ _, hok⟩
    · obtain ⟨Y, m', hY, hok⟩ := ih e he
      exact ⟨Y, m', hY.trans (Set.subset_insert _ _), hok⟩

theorem Run.forall_fired {P : E → Prop} (hok : ∀ X m e, ok X m e → P e)
    (h : S.Run ok init X m) : ∀ e ∈ X, P e := by
  intro e he
  obtain ⟨Y, m', -, h⟩ := h.ok_of_mem e he
  exact hok Y m' e h

theorem Run.ready_of_mem (h : S.Run ok init X m) : ∀ e ∈ X, S.Ready X e := by
  induction h with
  | start => exact fun e he => he.elim
  | fire _ _ _ hr _ _ ih =>
    intro e he a ha
    rcases he with rfl | he
    · exact .inr (hr a ha)
    · exact .inr (ih e he a ha)

theorem Run.event_of_mem (h : S.Run ok init X m) : ∀ e ∈ X, S.event e := by
  induction h with
  | start => exact fun e he => he.elim
  | fire _ he _ _ _ _ ih =>
    rintro e (rfl | hX)
    · exact he
    · exact ih e hX

theorem Run.finite (h : S.Run ok init X m) : X.Finite := by
  induction h with
  | start => exact Set.finite_empty
  | fire _ _ _ _ _ _ ih => exact ih.insert _

theorem run_to {Y : Set E} (hfin : Y.Finite) (hstep : ∀ X m, S.Run ok init X m → ∀ e ∈ Y, e ∉ X →
      ∃ e' ∈ Y, S.event e' ∧ e' ∉ X ∧ S.Ready X e' ∧ S.guard e' m ∧ ok X m e') :
    ∃ m, S.Run ok init Y m := by
  have hextend : ∀ n X m, (Y \ X).ncard = n → X ⊆ Y → S.Run ok init X m →
      ∃ m, S.Run ok init Y m := by
    intro n
    induction n with
    | zero =>
      intro X m hn hXY hrun
      have hempty := (Set.ncard_eq_zero hfin.sdiff).mp hn
      obtain rfl := hXY.antisymm (Set.sdiff_eq_empty.mp hempty)
      exact ⟨m, hrun⟩
    | succ n ih =>
      intro X m hn hXY hrun
      obtain ⟨e, heY, heX⟩ : (Y \ X).Nonempty := by
        rw [← Set.ncard_pos hfin.sdiff]
        omega
      obtain ⟨e', heY', he', hX', hr, hg, hok⟩ := hstep X m hrun e heY heX
      apply ih _ _ _ (Set.insert_subset heY' hXY) (hrun.fire he' hX' hr hg hok)
      have hdiff : Y \ insert e' X = (Y \ X) \ {e'} := by
        rw [Set.sdiff_sdiff, Set.union_singleton]
      have hcard := Set.ncard_sdiff_singleton_add_one (s := Y \ X) ⟨heY', hX'⟩ hfin.sdiff
      rw [hdiff]
      omega
  exact hextend _ ∅ init rfl (Set.empty_subset Y) .start

end Runs

section Replay

variable [DecidableEq E] [DecidableEq C] [Add V] (S : System E C V) (preds : E → List E)
  [DecidablePred S.event] [∀ e m, Decidable (S.guard e m)]

def replay : List E → List E → (C → V) → Option (List E)
  | [], fired, _ => some fired
  | e :: es, fired, m =>
    if S.event e ∧ e ∉ fired ∧ (∀ a ∈ preds e, a ∈ fired) ∧ S.guard e m then
      replay es (e :: fired) ((S.action e).apply m)
    else none

def memoryAfter (S : System E C V) (es : List E) (m : C → V) : C → V :=
  es.foldl (fun m e => (S.action e).apply m) m

variable {S preds} {ok : Set E → (C → V) → E → Prop} {init m : C → V} {es fired fired' : List E}

variable (hpre : ∀ a e, S.pre a e → a ∈ preds e)
include hpre

theorem run_of_replay
    (hok : ∀ X m, {a | a ∈ fired} ⊆ X → ∀ e ∈ es, ok X m e)
    (hrun : S.Run ok init {a | a ∈ fired} m) (h : S.replay preds es fired m = some fired') :
    S.Run ok init {a | a ∈ fired'} (S.memoryAfter es m) := by
  induction es generalizing fired m with
  | nil =>
    cases h
    exact hrun
  | cons e es ih =>
    rw [replay] at h
    split at h
    next hen =>
      obtain ⟨he, hnew, hready, hg⟩ := hen
      have hstep := hrun.fire he hnew (fun a ha => hready a (hpre a e ha)) hg
        (hok _ _ (Set.Subset.refl _) e mem_cons_self)
      have hset : insert e {a | a ∈ fired} = {a | a ∈ e :: fired} := by
        ext a
        simp
      rw [hset] at hstep
      refine ih (fun X m hX a ha => hok X m (fun b hb => hX ?_) a (mem_cons_of_mem e ha)) hstep h
      exact mem_cons_of_mem e hb
    next => cases h

theorem run_after_trace (hok : ∀ X m, ∀ e ∈ es, ok X m e)
    (h : S.replay preds es [] init = some fired) :
    S.Run ok init {a | a ∈ fired} (S.memoryAfter es init) := by
  have hempty : {a : E | a ∈ []} = ∅ := by simp
  exact run_of_replay hpre (fun X m _ => hok X m) (hempty ▸ .start) h

theorem run_of_trace (hok : ∀ X m, ∀ e ∈ es, ok X m e)
    (h : S.replay preds es [] init = some fired) : ∃ m, S.Run ok init {a | a ∈ fired} m :=
  ⟨_, run_after_trace hpre hok h⟩

theorem any_run_of_trace (h : S.replay preds es [] init = some fired) :
    ∃ m, S.Run anyStep init {a | a ∈ fired} m :=
  run_of_trace hpre (fun _ _ _ _ => trivial) h

end Replay

end System

export System (anyStep)

structure Certificate (E V : Type*) where
  waitsFor : E → E → Prop
  val : E → V

section Order

variable {W : Type*} {S : System E C V} {K : Certificate E W}

def Closed (S : System E C V) (K : Certificate E W) (X : Set E) : Prop :=
  ∀ e ∈ X, (∀ a, S.pre a e → a ∈ X) ∧ ∀ a, K.waitsFor e a → a ∈ X

def Before (S : System E C V) (K : Certificate E W) (a e : E) : Prop :=
  ∀ X, Closed S K X → e ∈ X → a ∈ X

theorem Before.refl (e : E) : Before S K e e := fun _ _ h => h

theorem Before.trans {a b e : E} (hab : Before S K a b) (hbe : Before S K b e) : Before S K a e :=
  fun X hX he => hab X hX (hbe X hX he)

theorem before_of_pre {a e : E} (h : S.pre a e) : Before S K a e :=
  fun _ hX he => (hX e he).1 a h

theorem before_of_waits {a e : E} (h : K.waitsFor e a) : Before S K a e :=
  fun _ hX he => (hX e he).2 a h

theorem before_of_le {f : ℕ → E} (h : ∀ k, Before S K (f k) (f (k + 1))) {k k' : ℕ}
    (hk : k ≤ k') : Before S K (f k) (f k') := by
  induction hk with
  | refl => exact Before.refl (f k)
  | step _ ih => exact ih.trans (h _)

def Depends (S : System E C V) (K : Certificate E W) (a e : E) : Prop :=
  S.pre a e ∨ K.waitsFor e a

theorem before_iff {a e : E} : Before S K a e ↔ Relation.ReflTransGen (Depends S K) a e := by
  constructor
  · intro h
    apply h {x | Relation.ReflTransGen (Depends S K) x e} _ .refl
    intro x hx
    exact ⟨fun y hy => .head (.inl hy) hx, fun y hy => .head (.inr hy) hx⟩
  · intro h
    induction h with
    | refl => exact Before.refl a
    | tail _ hd ih =>
      rcases hd with hp | hw
      · exact ih.trans (before_of_pre hp)
      · exact ih.trans (before_of_waits hw)

theorem acyclic_of_rank {N : Type*} [LT N] [WellFoundedLT N] (rank : E → N)
    (h : ∀ {a e : E}, Depends S K a e → rank a < rank e) : WellFounded (Depends S K) :=
  Subrelation.wf h (InvImage.wf rank wellFounded_lt)

theorem before_antisymm (hwf : WellFounded (Depends S K)) {a e : E} (h : Before S K a e)
    (h' : Before S K e a) : a = e := by
  rw [before_iff] at h h'
  rcases Relation.reflTransGen_iff_eq_or_transGen.mp h with heq | ht
  · exact heq.symm
  · exact absurd (ht.trans_left h') (hwf.transGen.irrefl.irrefl a)

theorem Closed.insert {X : Set E} {e : E} (hX : Closed S K X) (hr : S.Ready X e)
    (hm : ∀ a, K.waitsFor e a → a ∈ X) : Closed S K (insert e X) := by
  grind [System.Ready, Closed]

theorem Closed.not_before {X : Set E} (hX : Closed S K X) {a e : E} (ha : a ∉ X) (he : e ∈ X) :
    ¬ Before S K a e :=
  fun h => ha (h X hX he)

end Order

section Contents

variable [AddCommMonoid V] {S : System E C V} {K : Certificate E V}

def baseValue (K : Certificate E V) (init : V) : Option E → V
  | none => init
  | some w => K.val w

def LastStore (S : System E C V) (K : Certificate E V) (X : Set E) (c : C) : Option E → Prop
  | none => ∀ w ∈ X, ¬ S.StoresTo c w
  | some w => w ∈ X ∧ S.StoresTo c w ∧ ∀ w' ∈ X, S.StoresTo c w' → Before S K w' w

def Contents (S : System E C V) (K : Certificate E V) (init : C → V) (X : Set E) (m : C → V)
    (c : C) : Prop :=
  ∃ (s : Option E) (l : List E), LastStore S K X c s ∧ l.Nodup ∧
    (∀ a, a ∈ l ↔ a ∈ X ∧ S.AddsTo c a ∧ ∀ w, s = some w → ¬ Before S K a w) ∧
    m c = baseValue K (init c) s + (l.map fun a => (S.action a).amount).sum

structure Consistent (S : System E C V) (K : Certificate E V) (init : C → V) (X : Set E)
    (m : C → V) : Prop where
  events : ∀ e ∈ X, S.event e
  closed : Closed S K X
  contents : ∀ c, Contents S K init X m c

/-- The obligations, in runs whose steps satisfy `ok`. No event depends on itself. Two
writers of one cell, one of them a store, are ordered. A step proves that what it waits for
has fired. A store writes its value. -/
structure Sound (S : System E C V) (K : Certificate E V) (ok : Set E → (C → V) → E → Prop)
    (init : C → V) : Prop where
  acyclic : WellFounded (Depends S K)
  ordered : ∀ c w w', S.event w → S.event w' → S.StoresTo c w → S.Writes c w' →
    w = w' ∨ Before S K w w' ∨ Before S K w' w
  matched : ∀ X m e, Consistent S K init X m → S.event e → e ∉ X → S.Ready X e → S.guard e m →
    ok X m e → ∀ a, K.waitsFor e a → a ∈ X
  valued : ∀ X m e c f, Consistent S K init X m → S.event e → e ∉ X → S.Ready X e →
    (∀ a, K.waitsFor e a → a ∈ X) → S.action e = .store c f → f m = K.val e

theorem consistent_start (init : C → V) : Consistent S K init ∅ init := by
  refine ⟨fun e he => he.elim, fun e he => he.elim, fun c => ⟨none, [], ?_, nodup_nil, ?_, ?_⟩⟩
  · exact fun w hw => hw.elim
  · intro a
    simp
  · simp [baseValue]

variable {ok : Set E → (C → V) → E → Prop} {init : C → V} {X : Set E} {m m' : C → V} {e : E}
  {c : C}

theorem Contents.frame (h : Contents S K init X m c) (hw : ¬ S.Writes c e) (hm : m' c = m c) :
    Contents S K init (insert e X) m' c := by
  obtain ⟨s, l, hlast, hnd, hl, hval⟩ := h
  refine ⟨s, l, ?_, hnd, fun a => ?_, by rw [hm, hval]⟩
  · cases s with
    | none =>
      rintro w (rfl | hX) hs
      · exact hw (.inl hs)
      · exact hlast w hX hs
    | some w =>
      grind [LastStore, System.Writes]
  · grind [System.Writes]

theorem Contents.store (hS : Sound S K ok init) (hc : Consistent S K init X m) (he : S.event e)
    (hX : e ∉ X) {f : (C → V) → V} (hact : S.action e = .store c f) (hval : m' c = K.val e) :
    Contents S K init (insert e X) m' c := by
  -- every earlier writer of the cell comes before the new store
  have hbefore : ∀ w ∈ X, S.Writes c w → Before S K w e := by
    intro w hw hwrites
    rcases hS.ordered c e w he (hc.events w hw) ⟨f, hact⟩ hwrites with rfl | h | h
    · exact absurd hw hX
    · exact absurd (h X hc.closed hw) hX
    · exact h
  refine ⟨some e, [], ⟨.inl rfl, ⟨f, hact⟩, ?_⟩, nodup_nil, fun a => ?_, ?_⟩
  all_goals grind [baseValue, Before, System.Writes]

theorem Contents.add (hc : Consistent S K init X m) (hX : e ∉ X) {v : V}
    (hact : S.action e = .add c v) (hval : m' c = m c + v) :
    Contents S K init (insert e X) m' c := by
  obtain ⟨s, l, hlast, hnd, hl, hm⟩ := hc.contents c
  have hnot : e ∉ l := fun h => hX ((hl e).mp h).1
  refine ⟨s, e :: l, ?_, nodup_cons.mpr ⟨hnot, hnd⟩, fun a => ?_, ?_⟩
  · cases s with
    | none =>
      rintro w (rfl | hw) ⟨f, hs⟩
      · rw [hact] at hs
        cases hs
      · exact hlast w hw ⟨f, hs⟩
    | some w =>
      refine ⟨.inr hlast.1, hlast.2.1, ?_⟩
      rintro w' (rfl | hw') ⟨f, hs⟩
      · rw [hact] at hs
        cases hs
      · exact hlast.2.2 w' hw' ⟨f, hs⟩
  · grind [LastStore, System.AddsTo, Consistent, Before]
  · rw [hval, hm, map_cons, sum_cons, hact]
    simp only [Effect.amount]
    rw [add_assoc, add_comm v]

/-- A statement leaves a cell as it is, stores to it or adds to it. -/
theorem System.forall_cells [DecidableEq C] {P : C → Prop}
    (hkeep : ∀ c, ¬ S.Writes c e → (S.action e).apply m c = m c → P c)
    (hstore : ∀ c f, S.action e = .store c f → (S.action e).apply m c = f m → P c)
    (hadd : ∀ c v, S.action e = .add c v → (S.action e).apply m c = m c + v → P c) (c : C) :
    P c := by
  cases hact : S.action e with
  | skip =>
    apply hkeep c _ (by rw [hact]; rfl)
    rintro (⟨f, h⟩ | ⟨v, h⟩) <;> rw [hact] at h <;> cases h
  | store c' f | add c' v =>
    by_cases hcc : c = c'
    · subst hcc
      first
      | exact hstore c f hact (by rw [hact]; exact Function.update_self ..)
      | exact hadd c v hact (by rw [hact]; exact Function.update_self ..)
    · apply hkeep c _ (by rw [hact]; exact Function.update_of_ne hcc _ _)
      rintro (⟨g, h⟩ | ⟨g, h⟩) <;> rw [hact] at h <;> cases h
      exact hcc rfl

theorem Consistent.fire [DecidableEq C] (hS : Sound S K ok init) (hc : Consistent S K init X m)
    (he : S.event e) (hX : e ∉ X) (hr : S.Ready X e) (hg : S.guard e m) (hok : ok X m e) :
    Consistent S K init (insert e X) ((S.action e).apply m) := by
  have hmatched := hS.matched X m e hc he hX hr hg hok
  refine ⟨?_, hc.closed.insert hr hmatched, System.forall_cells
    (fun c => (hc.contents c).frame) (fun c f hact hval => ?_) fun c v => Contents.add hc hX⟩
  · rintro e' (rfl | he')
    · exact he
    · exact hc.events e' he'
  · apply Contents.store hS hc he hX hact
    rw [hval]
    exact hS.valued X m e c f hc he hX hr hmatched hact

theorem run_consistent [DecidableEq C] (hS : Sound S K ok init) (h : S.Run ok init X m) :
    Consistent S K init X m := by
  induction h with
  | start => exact consistent_start init
  | fire _ he hX hr hg hok ih => exact ih.fire hS he hX hr hg hok

section

variable (hwf : WellFounded (Depends S K)) (hc : Consistent S K init X m)
include hwf hc

theorem Consistent.read {w : E} (hw : w ∈ X) (hs : S.StoresTo c w)
    (hlast : ∀ w' ∈ X, S.Writes c w' → Before S K w' w) : m c = K.val w := by
  obtain ⟨s, l, hls, hnd, hl, hm⟩ := hc.contents c
  cases s with
  | none => exact absurd hs (hls w hw)
  | some w' =>
    obtain rfl : w' = w := before_antisymm hwf (hlast w' hls.1 (.inl hls.2.1)) (hls.2.2 w hw hs)
    have hnil : l = [] := by
      apply eq_nil_iff_forall_not_mem.mpr
      intro a ha
      obtain ⟨haX, hadd, hlater⟩ := (hl a).mp ha
      exact hlater w' rfl (hlast a haX (.inr hadd))
    simpa [baseValue, hnil] using hm

theorem Consistent.read_once {w : E} (hw : w ∈ X) (hs : S.StoresTo c w)
    (honce : ∀ w', S.event w' → S.Writes c w' → w' = w) : m c = K.val w := by
  apply hc.read hwf hw hs
  intro w' hw' hwrites
  rw [honce w' (hc.events w' hw') hwrites]
  exact Before.refl w

theorem Consistent.read_before (hX : e ∉ X) {w : E} (hw : w ∈ X) (hs : S.StoresTo c w)
    (hother : ∀ w', S.event w' → S.Writes c w' → Before S K w' w ∨ Before S K e w') :
    m c = K.val w := by
  grind [Consistent, Before, Consistent.read]

end

section

variable (hc : Consistent S K init X m)
include hc

theorem Consistent.read_init (hno : ∀ w ∈ X, ¬ S.Writes c w) : m c = init c := by
  obtain ⟨s, l, hls, hnd, hl, hm⟩ := hc.contents c
  have hnil : l = [] := by
    apply eq_nil_iff_forall_not_mem.mpr
    intro a ha
    obtain ⟨haX, hadd, -⟩ := (hl a).mp ha
    exact hno a haX (.inr hadd)
  cases s with
  | none => rw [hm, hnil]; simp [baseValue]
  | some w => exact absurd (.inl hls.2.1) (hno w hls.1)

theorem Consistent.last_store (hno : ∀ a, ¬ S.AddsTo c a) :
    (m c = init c ∧ ∀ w ∈ X, ¬ S.StoresTo c w) ∨
    ∃ w ∈ X, S.StoresTo c w ∧ m c = K.val w ∧ ∀ w' ∈ X, S.StoresTo c w' → Before S K w' w := by
  obtain ⟨s, l, hls, hnd, hl, hm⟩ := hc.contents c
  have hnil : l = [] := by
    apply eq_nil_iff_forall_not_mem.mpr
    intro a ha
    exact hno a ((hl a).mp ha).2.1
  cases s with
  | none => exact .inl ⟨by simpa [baseValue, hnil] using hm, hls⟩
  | some w => exact .inr ⟨w, hls.1, hls.2.1, by simpa [baseValue, hnil] using hm, hls.2.2⟩

theorem Consistent.read_cleared (hval : ∀ w ∈ X, S.StoresTo c w → K.val w = init c)
    (hclear : ∀ a ∈ X, S.AddsTo c a → ∃ w ∈ X, S.StoresTo c w ∧ Before S K a w) : m c = init c := by
  obtain ⟨s, l, hls, hnd, hl, hm⟩ := hc.contents c
  have hnil : l = [] := by
    apply eq_nil_iff_forall_not_mem.mpr
    intro a ha
    obtain ⟨haX, hadd, hlater⟩ := (hl a).mp ha
    obtain ⟨w, hw, hs, hb⟩ := hclear a haX hadd
    cases s with
    | none => exact hls w hw hs
    | some w' => exact hlater w' rfl (hb.trans (hls.2.2 w hw hs))
  cases s with
  | none => simpa [baseValue, hnil] using hm
  | some w => rw [hm, hnil, baseValue, hval w hls.1 hls.2.1, map_nil, sum_nil, add_zero]

theorem Consistent.read_pending {a : E} {v : V} (ha : a ∈ X) (hact : S.action a = .add c v)
    (hval : ∀ w ∈ X, S.StoresTo c w → K.val w = init c)
    (hopen : ∀ w ∈ X, S.StoresTo c w → ¬ Before S K a w)
    (hclear : ∀ a' ∈ X, S.AddsTo c a' → a' ≠ a → ∃ w ∈ X, S.StoresTo c w ∧ Before S K a' w) :
    m c = init c + v := by
  obtain ⟨s, l, hls, hnd, hl, hm⟩ := hc.contents c
  have hmem : ∀ a', a' ∈ l ↔ a' = a := by
    intro a'
    rw [hl]
    constructor
    · rintro ⟨haX, hadd, hlater⟩
      by_contra hne
      obtain ⟨w, hw, hs, hb⟩ := hclear a' haX hadd hne
      cases s with
      | none => exact hls w hw hs
      | some w' => exact hlater w' rfl (hb.trans (hls.2.2 w hw hs))
    · rintro rfl
      refine ⟨ha, ⟨v, hact⟩, ?_⟩
      rintro w rfl
      exact hopen w hls.1 hls.2.1
  have hsingle : l = [a] :=
    perm_singleton.mp ((perm_ext_iff_of_nodup hnd (nodup_singleton a)).mpr
      fun a' => by rw [hmem, mem_singleton])
  have hbase : baseValue K (init c) s = init c := by
    cases s with
    | none => rfl
    | some w => exact hval w hls.1 hls.2.1
  simp [hm, hsingle, hbase, hact, Effect.amount]

end

structure Live (S : System E C V) (K : Certificate E V) (ok : Set E → (C → V) → E → Prop)
    (init : C → V) : Prop where
  pre_event : ∀ a e, S.pre a e → S.event a
  waits_event : ∀ e a, K.waitsFor e a → S.event a
  guarded : ∀ X m e, Consistent S K init X m → S.event e → e ∉ X → S.Ready X e →
    (∀ a, K.waitsFor e a → a ∈ X) → S.guard e m ∧ ok X m e

theorem Live.progress (hL : Live S K ok init) (hwf : WellFounded (Depends S K))
    (hc : Consistent S K init X m) (he : S.event e) (hX : e ∉ X) :
    ∃ e', S.event e' ∧ e' ∉ X ∧ S.Ready X e' ∧ (S.guard e' m ∧ ok X m e') ∧ Before S K e' e := by
  induction e using hwf.induction with
  | _ e ih =>
    grind [Depends, System.Ready, Live, Before.refl, Before.trans, before_of_pre, before_of_waits]

theorem Live.run_reaches [DecidableEq C] (hL : Live S K ok init) (hS : Sound S K ok init)
    {Y : Set E} (hfin : Y.Finite) (hY : ∀ e ∈ Y, S.event e) (hcl : Closed S K Y) :
    ∃ m, S.Run ok init Y m := by
  refine System.run_to hfin fun X m hrun e heY heX => ?_
  obtain ⟨e', he', hX', hr, ⟨hg, hok⟩, hb⟩ :=
    hL.progress hS.acyclic (run_consistent hS hrun) (hY e heY) heX
  exact ⟨e', hb Y hcl heY, he', hX', hr, hg, hok⟩

theorem Live.run_all [DecidableEq C] (hL : Live S K ok init) (hS : Sound S K ok init)
    (hfin : {e | S.event e}.Finite) : ∃ m, S.Run ok init {e | S.event e} m := by
  apply hL.run_reaches hS hfin fun _ he => he
  intro e _
  exact ⟨fun a => hL.pre_event a e, hL.waits_event e⟩

end Contents

/-- How a statement takes effect: before the next statement; at any later time; after
everything posted earlier on its link, at any later time or before the next statement; or
as a completion of everything posted. -/
inductive Mode (L : Type*) where
  | blocking
  | posted (link : L)
  | ordered (link : L)
  | flushed (link : L)
  | drain

def Mode.Precedes {L : Type*} : Mode L → Mode L → Prop
  | .posted l, .ordered l' | .posted l, .flushed l' => l = l'
  | .ordered l, .ordered l' | .ordered l, .flushed l' => l = l'
  | .posted _, .drain | .ordered _, .drain => True
  | .posted _, _ | .ordered _, _ => False
  | _, _ => True

instance {L : Type*} [DecidableEq L] (a b : Mode L) : Decidable (a.Precedes b) := by
  cases a <;> cases b <;> dsimp only [Mode.Precedes] <;> infer_instance

theorem blocking_precedes {L : Type*} (mode : Mode L) : Mode.Precedes .blocking mode := by
  cases mode <;> trivial

structure Program (E P K L C V : Type*) where
  event : E → Prop
  pe : E → P
  point : E → K
  mode : E → Mode L
  guard : E → (C → V) → Prop
  action : E → Effect C V

namespace Program

variable {P L : Type*} {N : Type*} [LinearOrder N] (Q : Program E P N L C V)

def system : System E C V where
  event := Q.event
  pre a e := Q.event a ∧ Q.pe a = Q.pe e ∧ Q.point a < Q.point e ∧ (Q.mode a).Precedes (Q.mode e)
  guard := Q.guard
  action := Q.action

theorem pre_of_blocking {Q : Program E P N L C V} {a e : E} (ha : Q.event a) (hpe : Q.pe a = Q.pe e)
    (hpt : Q.point a < Q.point e) (hm : Q.mode a = .blocking) : Q.system.pre a e :=
  ⟨ha, hpe, hpt, hm ▸ blocking_precedes _⟩

section Listed

variable [DecidablePred Q.event] [DecidableEq P] [DecidableEq L]

instance (a e : E) : Decidable (Q.system.pre a e) :=
  inferInstanceAs (Decidable (_ ∧ _ ∧ _ ∧ Mode.Precedes _ _))

def preds (events : List E) (e : E) : List E := events.filter fun a => Q.system.pre a e

theorem mem_preds {Q : Program E P N L C V} [DecidablePred Q.event] {events : List E}
    (hall : ∀ a, Q.event a → a ∈ events) (a e : E) : a ∈ Q.preds events e ↔ Q.system.pre a e := by
  rw [preds, mem_filter, decide_eq_true_iff]
  exact ⟨fun h => h.2, fun h => ⟨hall a h.1, h⟩⟩

end Listed

theorem depends_forward {K : Certificate E V} (h : ∀ e a, K.waitsFor e a → Q.point a < Q.point e)
    {a e : E} (hd : Depends Q.system K a e) : Q.point a < Q.point e := by
  rcases hd with hp | hw
  · exact hp.2.2.1
  · exact h e a hw

theorem acyclic [WellFoundedLT N] {K : Certificate E V}
    (h : ∀ e a, K.waitsFor e a → Q.point a < Q.point e) : WellFounded (Depends Q.system K) :=
  acyclic_of_rank Q.point (Q.depends_forward h)

theorem point_le {K : Certificate E V} (h : ∀ e a, K.waitsFor e a → Q.point a < Q.point e)
    {a e : E} (hb : Before Q.system K a e) : Q.point a ≤ Q.point e := by
  induction before_iff.mp hb with
  | refl => exact le_refl _
  | tail hab hd ih => exact (ih (before_iff.mpr hab)).trans (Q.depends_forward h hd).le

end Program

section Points

variable {k k' g g' i i' : ℕ} {x x' : ℕ ×ₗ ℕ}

theorem point_lt_of_fst (h : k < k') : toLex (k, x) < toLex (k', x') := Prod.Lex.left _ _ h

theorem point_lt_of_snd (h : g < g') : toLex (k, toLex (g, i)) < toLex (k, toLex (g', i')) :=
  Prod.Lex.right _ (Prod.Lex.left _ _ h)

theorem point_lt_of_third (h : i < i') : toLex (k, toLex (g, i)) < toLex (k, toLex (g, i')) :=
  Prod.Lex.right _ (Prod.Lex.right _ h)

end Points

end MatchedPrograms
