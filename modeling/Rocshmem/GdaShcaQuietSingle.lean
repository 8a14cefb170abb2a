import Rocshmem.GdaShcaSendRing

/-! Lanes in `shca_quiet_single` on one queue pair. A lane loads `quiet_completed`, consumes that
CQE and stores the next index back, so a CQE is consumed once as long as no other lane loads the
index in between. -/
namespace GdaShcaQuietSingle

open GuardedMachines GdaShcaQueuePair GdaShcaSendRing

variable {N : ℕ}

def busy : Single → Bool
  | .idle | .top _ => false
  | _ => true

def Consumed : Single → ℕ → Prop
  | .cleared _ f _, j | .sunk _ f, j => j = f
  | _, _ => False

def SingleCall : Event N → Prop
  | .wave _ _ => False
  | _ => True

def Apart (s : State N) : Event N → Prop
  | .single _ .loadCompleted => ∀ y, busy (s.singles y) = false
  | _ => True

instance (e : Event N) : Decidable (SingleCall e) :=
  e.casesOn (fun _ _ => isTrue trivial) (fun _ _ => isFalse not_false)
    (fun _ _ => isTrue trivial) (isTrue trivial)

instance (s : State N) (e : Event N) : Decidable (Apart s e) := by
  rcases e with _ | _ | ⟨_, _ | _⟩ | _ <;> dsimp only [Apart] <;> infer_instance

structure Turn (qp : Qp) (upto completed : ℕ) : Prop where
  upto_le : upto ≤ qp.quietPosted
  own : completed = qp.quietCompleted
  sunk : qp.sqSunk = completed

def SingleOk (qp : Qp) : Single → Prop
  | .idle => True
  | .top u => u ≤ qp.quietPosted
  | .sawCompleted u f | .polling u f => Turn qp u f
  | .seen u f => Turn qp u f ∧ f < qp.completed
  | .counted u f k => Turn qp u f ∧ f < qp.completed ∧ k = f % 2 ^ 16
  | .known u f id | .cleared u f id => Turn qp u f ∧ f < qp.completed ∧ id = f
  | .sunk u f => u ≤ qp.quietPosted ∧ f = qp.quietCompleted ∧ qp.sqSunk = f + 1

structure Consumers (z : Sizes) (s : State N) : Prop where
  ring : Ring z s.qp s.groups fun j => ∃ x, Consumed (s.singles x) j
  single : ∀ x, SingleOk s.qp (s.singles x)
  one : ∀ {x y}, busy (s.singles x) = true → busy (s.singles y) = true → x = y
  sunk_eq : s.qp.sqSunk = s.qp.quietCompleted ∨ ∃ x, ∃ u f, s.singles x = .sunk u f

theorem SingleOk.transfer {qp qp' : Qp} {c : Single} (h : SingleOk qp c)
    (hF : qp'.quietCompleted = qp.quietCompleted) (hS : qp'.sqSunk = qp.sqSunk)
    (hQ : qp.quietPosted ≤ qp'.quietPosted) (hN : qp.completed ≤ qp'.completed) :
    SingleOk qp' c := by
  have hturn : ∀ {u f}, Turn qp u f → Turn qp' u f := fun ht =>
    ⟨ht.upto_le.trans hQ, ht.own.trans hF.symm, hS.trans ht.sunk⟩
  cases c with
  | idle => trivial
  | top u => exact h.trans hQ
  | sawCompleted u f | polling u f => exact hturn h
  | seen u f => exact ⟨hturn h.1, h.2.trans_le hN⟩
  | counted u f k | known u f id | cleared u f id =>
    exact ⟨hturn h.1, h.2.1.trans_le hN, h.2.2⟩
  | sunk u f => exact ⟨h.1.trans hQ, h.2.1.trans hF.symm, hS.trans h.2.2⟩

theorem SingleOk.of_not_busy {qp qp' : Qp} {c : Single} (h : SingleOk qp c)
    (hb : busy c = false) (hQ : qp.quietPosted ≤ qp'.quietPosted) : SingleOk qp' c := by
  cases c with
  | idle => trivial
  | top u => exact h.trans hQ
  | sawCompleted | polling | seen | counted | known | cleared | sunk => cases hb

theorem Consumed.busy {c : Single} {j : ℕ} (h : Consumed c j) : busy c = true := by
  cases c with
  | cleared | sunk => rfl
  | idle | top | sawCompleted | polling | seen | counted | known => exact h.elim

namespace Consumers

variable {z : Sizes} {s : State N} {x : Fin N} {u f : ℕ} {c : Single}

section

variable (h : Consumers z s)
include h

theorem group {g : Fin N} {e : GroupEvent} {r : Qp × Group}
    (hs : groupStep z s.qp (s.groups g) e = some r) : Consumers z (s.afterGroup g r) := by
  obtain ⟨hF, hS, -, -, hN, hQ⟩ := groupStep_counts hs
  exact ⟨h.ring.groupStep hs, fun x => (h.single x).transfer hF hS hQ hN.ge, h.one,
    h.sunk_eq.imp_left fun heq => hS.trans (heq.trans hF.symm)⟩

theorem complete {qp : Qp} (hs : s.qp.complete z = some qp) : Consumers z { s with qp } := by
  grind [Consumers, SingleOk.transfer, Ring.complete, complete_counts]

theorem not_busy (hx : busy (s.singles x) = true) {y : Fin N} (hy : y ≠ x) :
    busy (s.singles y) = false :=
  Bool.eq_false_iff.mpr fun hb => hy (h.one hb hx)

theorem consumed_iff (hx : busy (s.singles x) = true) (j : ℕ) :
    (∃ y, Consumed (s.singles y) j) ↔ Consumed (s.singles x) j := by
  constructor
  · rintro ⟨y, hy⟩
    rwa [← h.one hy.busy hx]
  · exact fun hj => ⟨x, hj⟩

theorem ready_lt (hx : s.singles x = .polling u f) (hr : s.qp.ready z f = true) :
    f < s.qp.completed := by
  have hturn : Turn s.qp u f := by
    have := h.single x
    rwa [hx] at this
  rw [Qp.ready, Bool.and_eq_true] at hr
  obtain ⟨hk, hge, hlt, -⟩ := h.ring.valid hr.2
  have hroom := h.ring.completed_le.trans h.ring.room
  have hcap := z.capacity_le_cq
  have hsunk := hturn.sunk
  have hown := hturn.own
  have heq := WrappingRings.eq_of_mod_eq hk (by omega) (by omega)
  omega

theorem after {qp : Qp} (hothers : ∀ y, y ≠ x → busy (s.singles y) = false)
    (hQ : s.qp.quietPosted ≤ qp.quietPosted) (hring : Ring z qp s.groups (Consumed c))
    (hok : SingleOk qp c) (hsunk : qp.sqSunk = qp.quietCompleted ∨ ∃ u f, c = .sunk u f) :
    Consumers z (s.afterSingle x (qp, c)) := by
  have hself : (s.afterSingle x (qp, c)).singles x = c := Function.update_self ..
  have hne : ∀ {y}, y ≠ x → (s.afterSingle x (qp, c)).singles y = s.singles y :=
    fun hy => Function.update_of_ne hy ..
  have hbusy : ∀ {y}, busy ((s.afterSingle x (qp, c)).singles y) = true → y = x := by
    intro y hy
    by_contra hyx
    rw [hne hyx, hothers y hyx] at hy
    cases hy
  refine ⟨hring.congr fun j => ?_, fun y => ?_, fun hy hy' => (hbusy hy).trans (hbusy hy').symm,
    hsunk.imp_right fun ⟨u, f, hc⟩ => ⟨x, u, f, hself.trans hc⟩⟩
  · constructor
    · exact fun hj => ⟨x, hself.symm ▸ hj⟩
    · rintro ⟨y, hy⟩
      rwa [hbusy hy.busy, hself] at hy
  · by_cases hyx : y = x
    · rw [hyx, hself]
      exact hok
    · rw [hne hyx]
      exact (h.single y).of_not_busy (hothers y hyx) hQ

theorem reads (hx : busy (s.singles x) = true) (hno : ∀ j, Consumed (s.singles x) j ↔ Consumed c j)
    (hok : SingleOk s.qp c) (hsunk : s.qp.sqSunk = s.qp.quietCompleted) :
    Consumers z (s.afterSingle x (s.qp, c)) :=
  h.after (fun _ hy => h.not_busy hx hy) le_rfl
    (h.ring.congr fun j => (h.consumed_iff hx j).trans (hno j)) hok (.inl hsunk)

end

end Consumers

namespace Consumers

variable {z : Sizes} {s t : State N} {x : Fin N} {u f k id : ℕ}

section

variable (h : Consumers z s)
include h

theorem call (hx : s.singles x = .idle) :
    Consumers z (s.afterSingle x (s.qp, .top s.qp.quietPosted)) := by
  have hself : (s.afterSingle x (s.qp, .top s.qp.quietPosted)).singles x = .top s.qp.quietPosted :=
    Function.update_self ..
  have hne : ∀ {y}, y ≠ x →
      (s.afterSingle x (s.qp, .top s.qp.quietPosted)).singles y = s.singles y :=
    fun hy => Function.update_of_ne hy ..
  have hbusy : ∀ y, busy ((s.afterSingle x (s.qp, .top s.qp.quietPosted)).singles y) =
      busy (s.singles y) := by
    intro y
    by_cases hyx : y = x
    · rw [hyx, hself, hx]
      rfl
    · rw [hne hyx]
  refine ⟨h.ring.congr fun j => exists_congr fun y => ?_, fun y => ?_,
    fun hy hy' => h.one (hbusy _ ▸ hy) (hbusy _ ▸ hy'), h.sunk_eq.imp_right ?_⟩
  · by_cases hyx : y = x
    · rw [hyx, hself, hx]
      rfl
    · rw [hne hyx]
  · by_cases hyx : y = x
    · rw [hyx, hself]
      exact le_rfl
    · rw [hne hyx]
      exact h.single y
  · grind

theorem loadCompleted (hx : s.singles x = .top u) (hap : ∀ y, busy (s.singles y) = false) :
    Consumers z (s.afterSingle x (s.qp, .sawCompleted u s.qp.quietCompleted)) := by
  have hup : SingleOk s.qp (.top u) := hx ▸ h.single x
  have hsunk : s.qp.sqSunk = s.qp.quietCompleted := by
    rcases h.sunk_eq with heq | ⟨y, u, f, hy⟩
    · exact heq
    · have := hap y
      rw [hy] at this
      cases this
  refine h.after (fun y _ => hap y) le_rfl (h.ring.congr fun j => ?_) ⟨hup, rfl, hsunk⟩
    (.inl hsunk)
  constructor
  · rintro ⟨y, hy⟩
    exact Bool.false_ne_true ((hap y).symm.trans hy.busy)
  · exact False.elim

theorem loadPosted (hx : s.singles x = .sawCompleted u f) :
    Consumers z (s.afterSingle x (s.qp, if f = s.qp.quietPosted then .idle else .polling u f)) := by
  have hturn : Turn s.qp u f := show SingleOk s.qp (.sawCompleted u f) from hx ▸ h.single x
  refine h.reads (by rw [hx]; rfl) (fun j => ?_) ?_ (hturn.sunk.trans hturn.own)
  · rw [hx]
    split <;> rfl
  · split
    · trivial
    · exact hturn

theorem poll (hx : s.singles x = .polling u f) (hr : s.qp.ready z f = true) :
    Consumers z (s.afterSingle x (s.qp, .seen u f)) := by
  have hturn : Turn s.qp u f := show SingleOk s.qp (.polling u f) from hx ▸ h.single x
  exact h.reads (by rw [hx]; rfl) (fun j => by rw [hx]; rfl) ⟨hturn, h.ready_lt hx hr⟩
    (hturn.sunk.trans hturn.own)

theorem counter (hx : s.singles x = .seen u f) :
    Consumers z (s.afterSingle x (s.qp, .counted u f (s.qp.cqe z f).wqeCounter)) := by
  obtain ⟨hturn, hlt⟩ := show SingleOk s.qp (.seen u f) from hx ▸ h.single x
  have hbusy : busy (s.singles x) = true := by rw [hx]; rfl
  have hno : ¬ ∃ y, Consumed (s.singles y) f := by
    rw [h.consumed_iff hbusy, hx]
    exact id
  have hwqe := h.ring.live hturn.own.ge hlt hno
  exact h.reads hbusy (fun j => by rw [hx]; rfl) ⟨hturn, hlt, congrArg (· % 2 ^ 16) hwqe⟩
    (hturn.sunk.trans hturn.own)

theorem table (hx : s.singles x = .counted u f k) :
    Consumers z (s.afterSingle x (s.qp, .known u f (s.qp.outstandingWqes k))) := by
  obtain ⟨hturn, hlt, rfl⟩ := show SingleOk s.qp (.counted u f k) from hx ▸ h.single x
  have hid := h.ring.table hturn.sunk.le (.inl (hlt.trans_le h.ring.completed_le))
  exact h.reads (by rw [hx]; rfl) (fun j => by rw [hx]; rfl) ⟨hturn, hlt, hid⟩
    (hturn.sunk.trans hturn.own)

theorem invalidate (hx : s.singles x = .known u f id) :
    Consumers z (s.afterSingle x (s.qp.invalidate z [f], .cleared u f id)) := by
  obtain ⟨hturn, hlt, hid⟩ := show SingleOk s.qp (.known u f id) from hx ▸ h.single x
  have hbusy : busy (s.singles x) = true := by rw [hx]; rfl
  have hno : ∀ j, ¬ ∃ y, Consumed (s.singles y) j := by
    intro j
    rw [h.consumed_iff hbusy, hx]
    exact False.elim
  have hring := h.ring.invalidate (List.nodup_singleton f) fun j hj => by
    rw [List.mem_singleton.mp hj]
    exact ⟨hturn.own.ge, hlt, hno f⟩
  refine h.after (fun _ hy => h.not_busy hbusy hy) le_rfl (hring.congr fun j => ?_)
    ⟨⟨hturn.upto_le, hturn.own, hturn.sunk⟩, hlt, hid⟩ (.inl (hturn.sunk.trans hturn.own))
  rw [or_iff_right (hno j), List.mem_singleton]
  rfl

theorem sink (hx : s.singles x = .cleared u f id) : Consumers z (s.afterSingle x
      ({ s.qp with sqSunk := max s.qp.sqSunk (id + 1) }, .sunk u f)) := by
  obtain ⟨hturn, hlt, rfl⟩ := show SingleOk s.qp (.cleared u f id) from hx ▸ h.single x
  have hbusy : busy (s.singles x) = true := by rw [hx]; rfl
  have hmax : max s.qp.sqSunk (id + 1) = id + 1 := by
    have := hturn.sunk
    omega
  have hring := h.ring.congr fun j => h.consumed_iff hbusy j
  rw [hx] at hring
  rw [hmax]
  refine h.after (fun _ hy => h.not_busy hbusy hy) le_rfl
    (hring.sink (by rw [hturn.sunk]; exact Nat.le_succ id) hlt fun {j} hge hj => ?_)
    ⟨hturn.upto_le, hturn.own, rfl⟩ (.inr ⟨u, id, rfl⟩)
  have := hturn.own
  change j = id
  omega

theorem store (hx : s.singles x = .sunk u f) :
    Consumers z (s.afterSingle x ({ s.qp with quietCompleted := f + 1 }, .top u)) := by
  obtain ⟨hup, hown, hsunk⟩ := show SingleOk s.qp (.sunk u f) from hx ▸ h.single x
  have hbusy : busy (s.singles x) = true := by rw [hx]; rfl
  have hring := h.ring.congr fun j => h.consumed_iff hbusy j
  rw [hx] at hring
  refine h.after (fun _ hy => h.not_busy hbusy hy) le_rfl
    (hring.finish (by omega) hsunk.ge fun j => ?_) hup (.inl hsunk)
  change False ↔ j = f ∧ f + 1 ≤ j
  exact ⟨False.elim, fun hj => by omega⟩

theorem singleStep {e : SingleEvent} {r : Qp × Single} (hap : Apart s (.single x e))
    (hs : singleStep z s.qp (s.singles x) e = some r) : Consumers z (s.afterSingle x r) := by
  generalize hx : s.singles x = c at hs
  rw [GdaShcaQueuePair.singleStep.eq_def] at hs
  split at hs
  · cases hs
    exact h.call hx
  · cases hs
    exact h.loadCompleted hx hap
  · cases hs
    exact h.loadPosted hx
  · split at hs
    next hr =>
      cases hs
      exact h.poll hx hr
    · cases hs
  · cases hs
    exact h.counter hx
  · cases hs
    exact h.table hx
  · cases hs
    exact h.invalidate hx
  · cases hs
    exact h.sink hx
  · cases hs
    exact h.store hx
  · cases hs

theorem step {e : Event N} (hcall : SingleCall e) (hap : Apart s e)
    (hs : GdaShcaQueuePair.step z s e = some t) : Consumers z t := by
  cases e with
  | group g e =>
    obtain ⟨r, hr, rfl⟩ := Option.map_eq_some_iff.mp hs
    exact h.group hr
  | wave w e => exact hcall.elim
  | single x e =>
    obtain ⟨r, hr, rfl⟩ := Option.map_eq_some_iff.mp hs
    exact h.singleStep hap hr
  | complete =>
    obtain ⟨qp, hqp, rfl⟩ := Option.map_eq_some_iff.mp hs
    exact h.complete hqp

end

theorem initial (z : Sizes) : Consumers z (GdaShcaQueuePair.initial N) := by
  refine ⟨(ring_initial z).congr fun j => ?_, fun _ => trivial,
    fun hx => absurd hx Bool.false_ne_true, .inl rfl⟩
  exact ⟨False.elim, fun ⟨_, hx⟩ => hx⟩

theorem completed_le_length (h : Consumers z s) : s.qp.quietCompleted ≤ s.qp.taken.length := by
  have hsub : List.range s.qp.quietCompleted ⊆ s.qp.taken := fun j hj =>
    h.ring.taken_iff.mpr (.inl (List.mem_range.mp hj))
  simpa using (List.nodup_range.subperm hsub).length_le

theorem completed_mono (h : Consumers z s) {e : Event N} (hcall : SingleCall e)
    (hs : GdaShcaQueuePair.step z s e = some t) : s.qp.quietCompleted ≤ t.qp.quietCompleted := by
  cases e with
  | group g e =>
    obtain ⟨r, hr, rfl⟩ := Option.map_eq_some_iff.mp hs
    exact (groupStep_counts hr).1.ge
  | wave w e => exact hcall.elim
  | complete =>
    obtain ⟨qp, hqp, rfl⟩ := Option.map_eq_some_iff.mp hs
    exact (complete_counts hqp).1.ge
  | single x e =>
    obtain ⟨r, hr, rfl⟩ := Option.map_eq_some_iff.mp hs
    have hok := h.single x
    generalize s.singles x = c at hr hok
    rw [GdaShcaQueuePair.singleStep.eq_def] at hr
    split at hr <;> (try split at hr) <;> cases hr
    case h_9 u f => exact hok.2.1.ge.trans (Nat.le_succ f)
    all_goals exact le_rfl

theorem upto_le_of_return (h : Consumers z s) (hx : s.singles x = .sawCompleted u f)
    (hret : f = s.qp.quietPosted) : u ≤ s.qp.completed := by
  have hturn : Turn s.qp u f := show SingleOk s.qp (.sawCompleted u f) from hx ▸ h.single x
  have hup := hturn.upto_le
  have hown := hturn.own
  have := h.ring.quietCompleted_le
  have := h.ring.sunk_le
  omega

end Consumers

/-- In every run of posts and callers of `shca_quiet_single` in which a caller loads the index
only while no other holds one, each CQE is consumed once, the completed count grows and counts
only consumed CQEs, and a caller returns when the WQEs posted at its call have completed. -/
theorem quiet_single_sound (z : Sizes) {s t : State N} {e : Event N}
    (hrun : (machine z N).Run (fun s e => SingleCall e ∧ Apart s e) s) (hcall : SingleCall e)
    (hs : step z s e = some t) :
    (s.qp.taken.Nodup ∧ ∀ j < s.qp.quietCompleted, j ∈ s.qp.taken) ∧
    s.qp.quietCompleted ≤ t.qp.quietCompleted ∧
    s.qp.quietCompleted ≤ s.qp.taken.length ∧
    (∀ x upto completed, s.singles x = .sawCompleted upto completed →
      completed = s.qp.quietPosted → upto ≤ s.qp.completed) := by
  have h : Consumers z s :=
    hrun.ofStep_induct (.initial z) fun _ _ _ hs hok he => hs.step hok.1 hok.2 he
  exact ⟨⟨h.ring.taken_nodup, fun j hj => h.ring.taken_iff.mpr (.inl hj)⟩,
    h.completed_mono hcall hs, h.completed_le_length,
    fun x u f hx hret => h.upto_le_of_return hx hret⟩

def consumes (x : Fin N) : List (Event N) :=
  [.loadCompleted, .loadPosted, .poll, .counter, .table, .invalidate, .sink, .store].map (.single x)

theorem quiet_single_sound_second :
    ∃ s t, (machine pairs 2).Run (fun s e => SingleCall e ∧ Apart s e) s ∧
      step pairs s (.single 1 .loadPosted) = some t ∧ s.singles 1 = .sawCompleted 2 2 ∧
      2 ≤ s.qp.completed := by
  obtain ⟨s, hrun, hP⟩ := run_of_replay (machine pairs 2)
    (fun s e => SingleCall e ∧ Apart s e)
    (posts 0 ++ posts 1 ++ [.complete, .complete, .single 0 .call, .single 1 .call] ++
      consumes 0 ++ consumes 1 ++ [.single 1 .loadCompleted])
    (fun s => (step pairs s (.single 1 .loadPosted)).isSome ∧
      s.singles 1 = .sawCompleted 2 2 ∧ s.qp.quietPosted = 2) (by decide +kernel)
  obtain ⟨t, ht⟩ := Option.isSome_iff_exists.mp hP.1
  have hcall : SingleCall (.single (1 : Fin 2) .loadPosted) := trivial
  exact ⟨s, t, hrun, ht, hP.2.1,
    (quiet_single_sound pairs hrun hcall ht).2.2.2 1 2 2 hP.2.1 hP.2.2.symm⟩

/-- Two lanes load the same index and see the same CQE. The first consumes it and the next one;
the second then consumes it again and stores an older count. -/
theorem quiet_single_consumes_twice :
    ∃ s t : State 2, (machine pairs 2).Run (fun _ e => SingleCall e) s ∧
      step pairs s (.single 1 .store) = some t ∧ s.qp.taken = [0, 1, 0] ∧
      s.qp.quietCompleted = 2 ∧ t.qp.quietCompleted = 1 := by
  obtain ⟨s, hrun, hP⟩ := run_of_replay (machine pairs 2) (fun _ e => SingleCall e)
    (posts 0 ++ posts 1 ++ [.complete, .complete, .single 0 .call, .single 1 .call] ++
      (consumes 1).take 3 ++ consumes 0 ++ consumes 0 ++ (consumes 1).extract 3 7)
    (fun s => (step pairs s (.single 1 .store)).any (·.qp.quietCompleted == 1) ∧
      s.qp.taken = [0, 1, 0] ∧ s.qp.quietCompleted = 2) (by decide +kernel)
  obtain ⟨t, ht, hF⟩ := (Option.any_eq_true ..).mp hP.1
  exact ⟨s, t, hrun, ht, hP.2.1, hP.2.2, eq_of_beq hF⟩

end GdaShcaQuietSingle
