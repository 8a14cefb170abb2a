import Rocshmem.MatchedPrograms

/-! Words that are used session after session. In a session signals are stored or added to the
word, and a closer then stores zero. Whoever waits in a session does so before it is closed. If
sessions follow each other, the word tells what was signalled in the present one. -/
namespace SessionWords

open List MatchedPrograms

variable {E C : Type*} {S : System E C ℤ} {K : Certificate E ℤ} {init : C → ℤ} {X : Set E}
  {m : C → ℤ} {c : C} {used : ℕ → Prop} {signal : ℕ → E → Prop} {closer : ℕ → E} {k k' : ℕ}
  {a e e' w : E}

structure Sessions (S : System E C ℤ) (K : Certificate E ℤ) (c : C) (used : ℕ → Prop)
    (signal : ℕ → E → Prop) (closer : ℕ → E) : Prop where
  acyclic : WellFounded (Depends S K)
  writer : ∀ {e}, S.event e → S.Writes c e → ∃ k, used k ∧ (signal k e ∨ e = closer k)
  closes : ∀ {k}, used k → S.StoresTo c (closer k) ∧ K.val (closer k) = 0
  signal_closer : ∀ {k e}, used k → S.event e → signal k e → Before S K e (closer k)
  closer_signal : ∀ {k k' e}, used k → used k' → k < k' → S.event e → signal k' e →
    Before S K (closer k) e
  closer_closer : ∀ {k k'}, used k → used k' → k < k' → Before S K (closer k) (closer k')

def InSession (signal : ℕ → E → Prop) (closer : ℕ → E) (k : ℕ) (e : E) : Prop :=
  signal k e ∨ e = closer k

namespace Sessions

section Order

variable (h : Sessions S K c used signal closer)
include h

theorem before_closer (hk : used k) (he : S.event e) (hin : InSession signal closer k e) :
    Before S K e (closer k) := by
  rcases hin with hs | rfl
  · exact h.signal_closer hk he hs
  · exact Before.refl _

theorem closer_before (hk : used k) (hk' : used k') (hlt : k < k') (he : S.event e)
    (hin : InSession signal closer k' e) : Before S K (closer k) e := by
  rcases hin with hs | rfl
  · exact h.closer_signal hk hk' hlt he hs
  · exact h.closer_closer hk hk' hlt

theorem before_of_lt (hk : used k) (hk' : used k') (hlt : k < k') (he : S.event e)
    (hin : InSession signal closer k e) (he' : S.event e') (hin' : InSession signal closer k' e') :
    Before S K e e' :=
  (h.before_closer hk he hin).trans (h.closer_before hk hk' hlt he' hin')

theorem ordered (hsame : ∀ {k e e'}, used k → S.event e → S.event e' → signal k e → signal k e' →
      S.StoresTo c e → e = e' ∨ Before S K e e' ∨ Before S K e' e)
    (he : S.event e) (he' : S.event e') (hs : S.StoresTo c e) (hw : S.Writes c e') :
    e = e' ∨ Before S K e e' ∨ Before S K e' e := by
  grind [Before, Sessions, System.Writes]

end Order

section Contents

variable (h : Sessions S K c used signal closer) (hc : Consistent S K init X m)
include h hc

theorem session_le (hk : used k) (hwait : Before S K e (closer k)) (hX : e ∉ X) (ha : a ∈ X)
    (hk' : used k') (hin : InSession signal closer k' a) : k' ≤ k := by
  grind [InSession, Consistent, Before, Sessions]

omit h in
theorem not_closer (hwait : Before S K e (closer k)) (hX : e ∉ X) (ha : a ∈ X) : a ≠ closer k := by
  rintro rfl
  exact hX (hwait X hc.closed ha)

theorem eq_closer (hk : used k) (hw : w ∈ X) (hin : InSession signal closer k w)
    (hlast : ∀ w' ∈ X, S.StoresTo c w' → Before S K w' w) (hclosed : closer k ∈ X) : w = closer k :=
  before_antisymm h.acyclic (h.before_closer hk (hc.events w hw) hin)
    (hlast _ hclosed (h.closes hk).1)

section Waiting

variable (hk : used k) (hwait : Before S K e (closer k)) (hX : e ∉ X)
  (hpast : ∀ k' < k, used k' → closer k' ∈ X)
include hk hwait hX hpast

theorem last_store_cases (hinit : init c = 0) {s : Option E} (hs : LastStore S K X c s) :
    baseValue K (init c) s = 0 ∨ ∃ w, s = some w ∧ w ∈ X ∧ signal k w := by
  cases s with
  | none => exact .inl hinit
  | some w =>
    obtain ⟨hw, hstore, hlast⟩ := hs
    obtain ⟨k', hk', hin⟩ := h.writer (hc.events w hw) (.inl hstore)
    rcases Nat.lt_or_eq_of_le (h.session_le hc hk hwait hX hw hk' hin) with hlt | rfl
    · rw [h.eq_closer hc hk' hw hin hlast (hpast k' hlt hk')]
      exact .inl (h.closes hk').2
    · rcases hin with hsig | rfl
      · exact .inr ⟨w, rfl, hw, hsig⟩
      · exact absurd rfl (not_closer hc hwait hX hw)

theorem pending_signal {s : Option E} (hs : LastStore S K X c s) (ha : a ∈ X)
    (hadd : S.AddsTo c a) (hlater : ∀ w, s = some w → ¬ Before S K a w) : signal k a := by
  obtain ⟨k', hk', hin⟩ := h.writer (hc.events a ha) (.inr hadd)
  rcases Nat.lt_or_eq_of_le (h.session_le hc hk hwait hX ha hk' hin) with hlt | rfl
  · -- the closer of the earlier session is followed by the last store
    exfalso
    have hclosed := hpast k' hlt hk'
    cases s with
    | none => exact hs _ hclosed (h.closes hk').1
    | some w =>
      exact hlater w rfl ((h.before_closer hk' (hc.events a ha) hin).trans
        (hs.2.2 _ hclosed (h.closes hk').1))
  · rcases hin with hsig | rfl
    · exact hsig
    · exact absurd rfl (not_closer hc hwait hX ha)

theorem signalled (hinit : init c = 0) (hne : m c ≠ 0) : ∃ a ∈ X, signal k a := by
  obtain ⟨s, l, hs, -, hl, hval⟩ := hc.contents c
  rcases h.last_store_cases hc hk hwait hX hpast hinit hs with hzero | ⟨w, -, hw, hsig⟩
  · rw [hzero, zero_add] at hval
    cases l with
    | nil => exact absurd hval hne
    | cons a l =>
      obtain ⟨ha, hadd, hlater⟩ := (hl a).mp mem_cons_self
      exact ⟨a, ha, h.pending_signal hc hk hwait hX hpast hs ha hadd hlater⟩
  · exact ⟨w, hw, hsig⟩

theorem last_signal (hnoadd : ∀ a, S.event a → signal k a → ¬ S.AddsTo c a) (ha : a ∈ X)
    (hsig : signal k a) (hstore : S.StoresTo c a) :
    ∃ w ∈ X, signal k w ∧ m c = K.val w ∧ Before S K a w := by
  obtain ⟨s, l, hs, -, hl, hval⟩ := hc.contents c
  have hnil : l = [] := by
    apply eq_nil_iff_forall_not_mem.mpr
    intro b hb
    obtain ⟨hbX, hadd, hlater⟩ := (hl b).mp hb
    exact hnoadd b (hc.events b hbX) (h.pending_signal hc hk hwait hX hpast hs hbX hadd hlater) hadd
  rw [hnil, map_nil, sum_nil, add_zero] at hval
  cases s with
  | none => exact absurd hstore (hs a ha)
  | some w =>
    obtain ⟨hw, hstores, hlast⟩ := hs
    have hbefore := hlast a ha hstore
    obtain ⟨k', hk', hin⟩ := h.writer (hc.events w hw) (.inl hstores)
    rcases Nat.lt_or_eq_of_le (h.session_le hc hk hwait hX hw hk' hin) with hlt | rfl
    · grind [baseValue, Consistent, Sessions, before_antisymm]
    · rcases hin with hsig' | rfl
      · exact ⟨w, hw, hsig', hval, hbefore⟩
      · exact absurd rfl (not_closer hc hwait hX hw)

variable (hinit : init c = 0)
include hinit

theorem flagged (hone : ∀ a, S.event a → signal k a → a = w)
    (hsig : signal k w) (hstore : S.StoresTo c w) (hne : K.val w ≠ 0) : m c = K.val w ↔ w ∈ X := by
  constructor
  · intro hval
    obtain ⟨a, ha, hsig'⟩ := h.signalled hc hk hwait hX hpast hinit (hval ▸ hne)
    exact hone a (hc.events a ha) hsig' ▸ ha
  · intro hw
    have hnoadd : ∀ a, S.event a → signal k a → ¬ S.AddsTo c a := by
      intro a hev hsig' ⟨v, hv⟩
      obtain ⟨f, hf⟩ := hstore
      rw [hone a hev hsig', hf] at hv
      cases hv
    obtain ⟨a, ha, hsig', hval, -⟩ := h.last_signal hc hk hwait hX hpast hnoadd hw hsig hstore
    rw [hval, hone a (hc.events a ha) hsig']

section

variable {L : List E} (hnd : L.Nodup) (hL : ∀ a, S.event a → (signal k a ↔ a ∈ L))
  (hadds : ∀ a, S.event a → signal k a → S.action a = .add c 1)
include hnd hL hadds

open Classical in
theorem counted : m c = (L.filter (· ∈ X)).length := by
  obtain ⟨s, l, hs, hndl, hl, hval⟩ := hc.contents c
  have hbase : baseValue K (init c) s = 0 := by
    rcases h.last_store_cases hc hk hwait hX hpast hinit hs with hzero | ⟨w, rfl, hw, hsig⟩
    · exact hzero
    · obtain ⟨f, hf⟩ := hs.2.1
      rw [hadds w (hc.events w hw) hsig] at hf
      cases hf
  have hmem : ∀ a, a ∈ l ↔ a ∈ L.filter (· ∈ X) := by
    intro a
    rw [hl, mem_filter, decide_eq_true_iff]
    constructor
    · intro ⟨ha, hadd, hlater⟩
      have hsig := h.pending_signal hc hk hwait hX hpast hs ha hadd hlater
      exact ⟨(hL a (hc.events a ha)).mp hsig, ha⟩
    · intro ⟨haL, ha⟩
      have hev := hc.events a ha
      have hsig := (hL a hev).mpr haL
      refine ⟨ha, ⟨1, hadds a hev hsig⟩, ?_⟩
      rintro w rfl hbefore
      -- a store after the addition would be one of a later session
      obtain ⟨k', hk', hin⟩ := h.writer (hc.events w hs.1) (.inl hs.2.1)
      obtain ⟨f, hf⟩ := hs.2.1
      rcases Nat.lt_or_eq_of_le (h.session_le hc hk hwait hX hs.1 hk' hin) with hlt | rfl
      · have heq := before_antisymm h.acyclic hbefore
          (h.before_of_lt hk' hk hlt (hc.events w hs.1) hin hev (.inl hsig))
        rw [← heq, hadds a hev hsig] at hf
        cases hf
      · grind [LastStore, Consistent, Before]
  have hperm : l.Perm (L.filter (· ∈ X)) := (perm_ext_iff_of_nodup hndl (hnd.filter _)).mpr hmem
  have hone : ∀ a ∈ l, (S.action a).amount = 1 := by
    grind [Consistent, Effect.amount]
  rw [hval, hbase, zero_add, map_congr_left hone, map_const', sum_replicate, hperm.length_eq]
  simp

theorem counted_all : m c = L.length ↔ ∀ a ∈ L, a ∈ X := by
  classical
  rw [h.counted hc hk hwait hX hpast hinit hnd hL hadds]
  constructor
  · intro hlen a ha
    have hle := length_filter_eq_length_iff.mp (Int.ofNat.inj hlen)
    exact of_decide_eq_true (hle a ha)
  · intro hall
    have hlen := length_filter_eq_length_iff.mpr fun a ha => decide_eq_true (hall a ha)
    rw [hlen]

end

theorem counted_members {n : ℕ} (hn : 0 < n) {f : ℕ → E}
    (hf : Function.Injective f)
    (hsignal : ∀ a, S.event a → (signal k a ↔ ∃ i, (0 < i ∧ i < n) ∧ a = f i))
    (hadds : ∀ a, S.event a → signal k a → S.action a = .add c 1) :
    m c = n - 1 ↔ ∀ i, 0 < i ∧ i < n → f i ∈ X := by
  have hmem : ∀ a, a ∈ (range (n - 1)).map (fun i => f (i + 1)) ↔
      ∃ i, (0 < i ∧ i < n) ∧ a = f i := by
    intro a
    rw [mem_map]
    constructor
    · intro ⟨i, hi, ha⟩
      have hlt := mem_range.mp hi
      exact ⟨i + 1, ⟨Nat.succ_pos i, by omega⟩, ha.symm⟩
    · intro ⟨i, ⟨hpos, hlt⟩, ha⟩
      refine ⟨i - 1, mem_range.mpr (by omega), ?_⟩
      rw [ha, Nat.sub_add_cancel hpos]
  have hnd : ((range (n - 1)).map fun i => f (i + 1)).Nodup :=
    nodup_range.map fun i j hij => Nat.succ.inj (hf hij)
  have hcount := h.counted_all hc hk hwait hX hpast hinit hnd
    (fun a ha => (hsignal a ha).trans (hmem a).symm) hadds
  rw [length_map, length_range, Nat.cast_sub hn, Nat.cast_one] at hcount
  refine hcount.trans ?_
  constructor
  · intro hall i hi
    exact hall _ ((hmem _).mpr ⟨i, hi, rfl⟩)
  · intro hall a ha
    obtain ⟨i, hi, rfl⟩ := (hmem a).mp ha
    exact hall i hi

end Waiting

end Contents

end Sessions

end SessionWords
