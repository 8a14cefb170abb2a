import Rocshmem.MatchedPrograms

/-! Contents of the memory when two stores of one cell need not be ordered. Which of them
fired last is not known; that the order does not force another one after it is. This is
enough to tell what a satisfied wait cannot have read. A certificate gives for every store a
condition on the value that it writes. -/
namespace RacyPrograms

open MatchedPrograms

variable {E C V : Type*} [AddCommMonoid V] {S : System E C V} {K : Certificate E (V → Prop)}

def LatestStore (S : System E C V) (K : Certificate E (V → Prop)) (X : Set E) (c : C) :
    Option E → Prop
  | none => ∀ w ∈ X, ¬ S.StoresTo c w
  | some w => w ∈ X ∧ S.StoresTo c w ∧ ∀ w' ∈ X, S.StoresTo c w' → Before S K w w' → w' = w

def LeavesBase (K : Certificate E (V → Prop)) (init : V) : Option E → V → Prop
  | none, v => v = init
  | some w, v => K.val w v

def RacyContents (S : System E C V) (K : Certificate E (V → Prop)) (init : C → V) (X : Set E)
    (m : C → V) (c : C) : Prop :=
  ∃ (s : Option E) (b : V) (l : List E), LatestStore S K X c s ∧ LeavesBase K (init c) s b ∧
    l.Nodup ∧ (∀ a ∈ l, a ∈ X ∧ S.AddsTo c a ∧ ∀ w ∈ X, S.StoresTo c w → ¬ Before S K a w) ∧
    m c = b + (l.map fun a => (S.action a).amount).sum

structure RacyConsistent (S : System E C V) (K : Certificate E (V → Prop)) (init : C → V)
    (X : Set E) (m : C → V) : Prop where
  events : ∀ e ∈ X, S.event e
  closed : Closed S K X
  contents : ∀ c, RacyContents S K init X m c

/-- The obligations, in runs whose steps satisfy `ok`. A step proves that what it waits for
has fired, and a store writes a value of its condition. -/
structure RacySound (S : System E C V) (K : Certificate E (V → Prop))
    (ok : Set E → (C → V) → E → Prop) (init : C → V) : Prop where
  matched : ∀ X m e, RacyConsistent S K init X m → S.event e → e ∉ X → S.Ready X e →
    S.guard e m → ok X m e → ∀ a, K.waitsFor e a → a ∈ X
  valued : ∀ m e c f, S.event e → S.action e = .store c f → K.val e (f m)

variable {ok : Set E → (C → V) → E → Prop} {init : C → V} {X : Set E} {m m' : C → V} {e : E}
  {c : C}

theorem racy_start (init : C → V) : RacyConsistent S K init ∅ init := by
  refine ⟨fun e he => he.elim, fun e he => he.elim, fun c => ?_⟩
  refine ⟨none, init c, [], fun w hw => hw.elim, rfl, List.nodup_nil, fun a ha => ?_, by simp⟩
  simp at ha

theorem RacyContents.frame (h : RacyContents S K init X m c) (hw : ¬ S.Writes c e)
    (hm : m' c = m c) : RacyContents S K init (insert e X) m' c := by
  obtain ⟨s, b, l, hlast, hbase, hnd, hl, hval⟩ := h
  refine ⟨s, b, l, ?_, hbase, hnd, fun a ha => ?_, by rw [hm, hval]⟩
  · cases s with
    | none =>
      rintro w (rfl | hX) hs
      · exact hw (.inl hs)
      · exact hlast w hX hs
    | some w =>
      grind [LatestStore, System.Writes]
  · grind [System.Writes]

theorem RacyContents.store (hcl : Closed S K X) (hX : e ∉ X) {f : (C → V) → V}
    (hact : S.action e = .store c f) (hval : K.val e (m' c)) :
    RacyContents S K init (insert e X) m' c := by
  refine ⟨some e, m' c, [], ⟨.inl rfl, ⟨f, hact⟩, ?_⟩, hval, List.nodup_nil, fun a ha => ?_,
    by simp⟩
  · rintro w (rfl | hw) - hb
    · rfl
    · exact absurd hb (hcl.not_before hX hw)
  · simp at ha

theorem RacyContents.add (h : RacyContents S K init X m c) (hcl : Closed S K X) (hX : e ∉ X)
    {v : V} (hact : S.action e = .add c v) (hval : m' c = m c + v) :
    RacyContents S K init (insert e X) m' c := by
  obtain ⟨s, b, l, hlast, hbase, hnd, hl, hm⟩ := h
  have hnot : e ∉ l := fun h => hX (hl e h).1
  have hstore : ¬ S.StoresTo c e := by
    rintro ⟨f, hf⟩
    rw [hact] at hf
    cases hf
  refine ⟨s, b, e :: l, ?_, hbase, List.nodup_cons.mpr ⟨hnot, hnd⟩, ?_, ?_⟩
  · cases s with
    | none =>
      rintro w (rfl | hw) hs
      · exact hstore hs
      · exact hlast w hw hs
    | some w =>
      grind [LatestStore]
  · grind [System.AddsTo, Before]
  · rw [hval, hm, List.map_cons, List.sum_cons, hact]
    simp only [Effect.amount]
    rw [add_assoc, add_comm v]

theorem RacyConsistent.fire [DecidableEq C] (hS : RacySound S K ok init)
    (hc : RacyConsistent S K init X m) (he : S.event e) (hX : e ∉ X) (hr : S.Ready X e)
    (hg : S.guard e m) (hok : ok X m e) :
    RacyConsistent S K init (insert e X) ((S.action e).apply m) := by
  refine ⟨?_, hc.closed.insert hr (hS.matched X m e hc he hX hr hg hok), System.forall_cells
    (fun c => (hc.contents c).frame) (fun c f hact hval => ?_)
    fun c v => (hc.contents c).add hc.closed hX⟩
  · rintro e' (rfl | he')
    · exact he
    · exact hc.events e' he'
  · apply RacyContents.store hc.closed hX hact
    rw [hval]
    exact hS.valued m e c f he hact

theorem run_racy [DecidableEq C] (hS : RacySound S K ok init) (h : S.Run ok init X m) :
    RacyConsistent S K init X m := by
  induction h with
  | start => exact racy_start init
  | fire _ he hX hr hg hok ih => exact ih.fire hS he hX hr hg hok

theorem RacyConsistent.read_stored (hc : RacyConsistent S K init X m)
    (hadd : ∀ a ∈ X, S.AddsTo c a → ∃ w ∈ X, S.StoresTo c w ∧ Before S K a w) :
    (m c = init c ∧ ∀ w ∈ X, ¬ S.StoresTo c w) ∨ ∃ w ∈ X, S.StoresTo c w ∧ K.val w (m c) ∧
      ∀ w' ∈ X, S.StoresTo c w' → Before S K w w' → w' = w := by
  obtain ⟨s, b, l, hlast, hbase, -, hl, hm⟩ := hc.contents c
  have hnil : l = [] := by
    apply List.eq_nil_iff_forall_not_mem.mpr
    intro a ha
    obtain ⟨haX, ha, hlater⟩ := hl a ha
    obtain ⟨w, hw, hs, hb⟩ := hadd a haX ha
    exact hlater w hw hs hb
  rw [hnil, List.map_nil, List.sum_nil, add_zero] at hm
  cases s with
  | none => exact .inl ⟨hm.trans hbase, hlast⟩
  | some w => exact .inr ⟨w, hlast.1, hlast.2.1, hm ▸ hbase, hlast.2.2⟩

end RacyPrograms
