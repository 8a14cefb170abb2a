import Rocshmem.MatchedPrograms

/-! Systems put together from parts. Two parts run side by side on disjoint memories; an event
of the one may have to wait for events of the other. A run of the whole is a run of each part,
and the whole is never held up if its parts are not. -/
namespace LinkedSystems

open MatchedPrograms

variable {E F C D V : Type*}

structure Part [DecidableEq C] [Add V] (S : System E C V) (K : Certificate E V) (init : C → V) :
    Prop where
  closed : ∀ {X m}, S.Run anyStep init X m → Closed S K X
  pre_event : ∀ {a e}, S.pre a e → S.event e → S.event a
  waits_event : ∀ {a e}, K.waitsFor e a → S.event e → S.event a
  guarded : ∀ {X m e}, S.Run anyStep init X m → S.event e → e ∉ X → S.Ready X e →
    (∀ a, K.waitsFor e a → a ∈ X) → S.guard e m

namespace Part

theorem of_sound [DecidableEq C] [AddCommMonoid V] {S : System E C V} {K : Certificate E V}
    {init : C → V} (hS : Sound S K anyStep init) (hL : Live S K anyStep init) :
    Part S K init where
  closed h := (run_consistent hS h).closed
  pre_event h _ := hL.pre_event _ _ h
  waits_event h _ := hL.waits_event _ _ h
  guarded h he hX hr hw := (hL.guarded _ _ _ (run_consistent hS h) he hX hr hw).1

variable [DecidableEq C] [Add V] {S : System E C V} {K : Certificate E V} {init : C → V}
  {X : Set E} {m : C → V} {e : E}

theorem progress (hS : Part S K init) (hwf : WellFounded (Depends S K))
    (hrun : S.Run anyStep init X m) (he : S.event e) (hX : e ∉ X) :
    ∃ e', S.event e' ∧ e' ∉ X ∧ S.Ready X e' ∧ S.guard e' m := by
  induction e using hwf.induction with
  | _ e ih =>
    grind [Depends, System.Ready, Part]

theorem run_complete (hS : Part S K init) (hwf : WellFounded (Depends S K))
    (hfin : {e | S.event e}.Finite) : ∃ m, S.Run anyStep init {e | S.event e} m := by
  refine System.run_to hfin fun X m hrun e he hX => ?_
  obtain ⟨e', he', hX', hr, hg⟩ := hS.progress hwf hrun he hX
  exact ⟨e', he', he', hX', hr, hg, trivial⟩

end Part

def only (S : System E C V) (P : E → Prop) : System E C V :=
  { S with event := fun e => S.event e ∧ P e }

section Only

variable [DecidableEq C] [Add V] {S : System E C V} {K : Certificate E V} {init : C → V}
  {P : E → Prop}

theorem run_of_only {X : Set E} {m : C → V} (h : (only S P).Run anyStep init X m) :
    S.Run anyStep init X m := by
  induction h with
  | start => exact .start
  | fire _ he hX hr hg hok ih => exact ih.fire he.1 hX hr hg hok

theorem Part.only (hS : Part S K init) (hP : ∀ {a e}, Depends S K a e → P e → P a) :
    Part (only S P) K init where
  closed h := hS.closed (run_of_only h)
  pre_event h he := ⟨hS.pre_event h he.1, hP (.inl h) he.2⟩
  waits_event h he := ⟨hS.waits_event h he.1, hP (.inr h) he.2⟩
  guarded h he hX hr hw := hS.guarded (run_of_only h) he.1 hX hr hw

end Only

def Effect.via (into : C → D) : Effect C V → Effect D V
  | .skip => .skip
  | .store c f => .store (into c) fun m => f (m ∘ into)
  | .add c v => .add (into c) v

section Via

variable [DecidableEq C] [DecidableEq D] [Add V] {into : C → D} {m : D → V}

theorem via_apply_comp (hinj : Function.Injective into) (a : Effect C V) :
    (Effect.via into a).apply m ∘ into = a.apply (m ∘ into) := by
  cases a with
  | skip => rfl
  | store c f | add c v => exact Function.update_comp_eq_of_injective m hinj c _

omit [DecidableEq C] in
theorem via_apply_of_ne {d : D} (h : ∀ c, d ≠ into c) (a : Effect C V) :
    (Effect.via into a).apply m d = m d := by
  cases a with
  | skip => rfl
  | store c f | add c v => exact Function.update_of_ne (h c) _ _

end Via

structure Embeds [DecidableEq D] [Add V] {G : Type*} (S : System E C V) (U : System G D V)
    (f : E → G) (g : C → D) : Prop where
  events_injective : Function.Injective f
  cells_injective : Function.Injective g
  event : ∀ {e}, U.event (f e) → S.event e
  pre : ∀ {a e}, S.pre a e → U.pre (f a) (f e)
  guard : ∀ {e m}, U.guard (f e) m → S.guard e (m ∘ g)
  action : ∀ e, U.action (f e) = Effect.via g (S.action e)
  others : ∀ {e m}, (∀ a, e ≠ f a) → (U.action e).apply m ∘ g = m ∘ g

theorem Embeds.run [DecidableEq C] [DecidableEq D] [Add V] {G : Type*} {S : System E C V}
    {U : System G D V} {f : E → G} {g : C → D} (hU : Embeds S U f g) {init m : D → V} {X : Set G}
    (h : U.Run anyStep init X m) :
    S.Run anyStep (init ∘ g) {e | f e ∈ X} (m ∘ g) := by
  induction h with
  | start => exact .start
  | @fire X m e _ he hX hr hg _ ih =>
    by_cases hmem : ∃ a, e = f a
    · obtain ⟨a, rfl⟩ := hmem
      have hset : {b | f b ∈ insert (f a) X} = insert a {b | f b ∈ X} := by
        ext b
        simp [hU.events_injective.eq_iff]
      rw [hset, hU.action, via_apply_comp hU.cells_injective]
      exact ih.fire (hU.event he) hX (fun b hb => hr (f b) (hU.pre hb)) (hU.guard hg) trivial
    · grind [Embeds]

def link (S : System E C V) (T : System F D V) (enters : E → F → Prop) (leaves : F → E → Prop) :
    System (E ⊕ F) (C ⊕ D) V where
  event
    | .inl e => S.event e
    | .inr e => T.event e
  pre
    | .inl a, .inl e => S.pre a e
    | .inl a, .inr e => enters a e
    | .inr a, .inl e => leaves a e
    | .inr a, .inr e => T.pre a e
  guard
    | .inl e, m => S.guard e (m ∘ .inl)
    | .inr e, m => T.guard e (m ∘ .inr)
  action
    | .inl e => Effect.via .inl (S.action e)
    | .inr e => Effect.via .inr (T.action e)

def both (K : Certificate E V) (L : Certificate F V) : Certificate (E ⊕ F) V where
  waitsFor
    | .inl e, .inl a => K.waitsFor e a
    | .inr e, .inr a => L.waitsFor e a
    | _, _ => False
  val := Sum.elim K.val L.val

section Link

variable {S : System E C V} {T : System F D V} {enters : E → F → Prop} {leaves : F → E → Prop}
  {K : Certificate E V} {L : Certificate F V}

section Runs

variable [DecidableEq C] [DecidableEq D] [Add V] {init m : C ⊕ D → V} {X : Set (E ⊕ F)}

theorem embeds_left : Embeds S (link S T enters leaves) .inl .inl where
  events_injective := Sum.inl_injective
  cells_injective := Sum.inl_injective
  event h := h
  pre h := h
  guard h := h
  action _ := rfl
  others {e m} h := by
    grind [link, via_apply_of_ne]

theorem embeds_right : Embeds T (link S T enters leaves) .inr .inr where
  events_injective := Sum.inr_injective
  cells_injective := Sum.inr_injective
  event h := h
  pre h := h
  guard h := h
  action _ := rfl
  others {e m} h := by
    grind [link, via_apply_of_ne]

theorem Part.link (hS : Part S K (init ∘ .inl)) (hT : Part T L (init ∘ .inr))
    (henters : ∀ {a b}, enters a b → S.event a) (hleaves : ∀ {b e}, leaves b e → T.event b) :
    Part (link S T enters leaves) (both K L) init where
  closed {X m} h := by
    intro e he
    refine ⟨h.ready_of_mem e he, fun a ha => ?_⟩
    cases e with
    | inl e =>
      cases a with
      | inl a => exact (hS.closed (embeds_left.run h) e he).2 a ha
      | inr a => exact ha.elim
    | inr e =>
      cases a with
      | inl a => exact ha.elim
      | inr a => exact (hT.closed (embeds_right.run h) e he).2 a ha
  pre_event {a e} h he := by
    grind [link, Part]
  waits_event {a e} h he := by
    grind [both, link, Part]
  guarded {X m e} h he hX hr hw := by
    cases e with
    | inl e =>
      exact hS.guarded (embeds_left.run h) he hX
        (fun a ha => hr (.inl a) ha) fun a ha => hw (.inl a) ha
    | inr e =>
      exact hT.guarded (embeds_right.run h) he hX
        (fun a ha => hr (.inr a) ha) fun a ha => hw (.inr a) ha

end Runs

theorem before_inr {a e : F} (h : Before T L a e) :
    Before (link S T enters leaves) (both K L) (.inr a) (.inr e) := by
  intro X hX he
  refine h {e : F | Sum.inr e ∈ X} (fun e he => ?_) he
  exact ⟨fun a ha => (hX (.inr e) he).1 (.inr a) ha, fun a ha => (hX (.inr e) he).2 (.inr a) ha⟩

theorem before_through {a e : E} {b b' : F} (ha : enters a b) (h : Before T L b b')
    (he : leaves b' e) : Before (link S T enters leaves) (both K L) (.inl a) (.inl e) :=
  (before_of_pre (S := link S T enters leaves) (a := .inl a) (e := .inr b) ha).trans
    ((before_inr h).trans (before_of_pre (S := link S T enters leaves) (a := .inr b')
      (e := .inl e) he))

theorem acyclic_link (hS : WellFounded (Depends S K)) (hT : WellFounded (Depends T L))
    {P : E → Prop} (hlate : ∀ {a e}, Depends S K a e → P a → P e)
    (henters : ∀ {a b}, enters a b → ¬ P a) (hleaves : ∀ {b e}, leaves b e → P e) :
    WellFounded (Depends (link S T enters leaves) (both K L)) := by
  have hearly : ∀ e, ¬ P e → Acc (Depends (link S T enters leaves) (both K L)) (.inl e) := by
    intro e
    induction e using hS.induction with
    | _ e ih =>
      intro he
      refine ⟨_, fun a ha => ?_⟩
      cases a with
      | inl a => exact ih a ha fun h => he (hlate ha h)
      | inr a =>
        rcases ha with ha | ha
        · exact absurd (hleaves ha) he
        · exact ha.elim
  have hright : ∀ e, Acc (Depends (link S T enters leaves) (both K L)) (.inr e) := by
    intro e
    induction e using hT.induction with
    | _ e ih =>
      refine ⟨_, fun a ha => ?_⟩
      cases a with
      | inl a =>
        rcases ha with ha | ha
        · exact hearly a (henters ha)
        · exact ha.elim
      | inr a => exact ih a ha
  have hleft : ∀ e, Acc (Depends (link S T enters leaves) (both K L)) (.inl e) := by
    intro e
    induction e using hS.induction with
    | _ e ih =>
      refine ⟨_, fun a ha => ?_⟩
      cases a with
      | inl a => exact ih a ha
      | inr a => exact hright a
  refine ⟨fun e => ?_⟩
  cases e with
  | inl e => exact hleft e
  | inr e => exact hright e

end Link

end LinkedSystems
