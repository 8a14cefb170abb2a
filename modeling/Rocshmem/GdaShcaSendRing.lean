import Rocshmem.GdaShcaQueuePair

/-! Waves in `shca_quiet` on one queue pair. As long as all active lanes of a wave are on the
queue pair, its claims cut the completions into ranges that are consumed once, in order, and
the slots of the send ring are reused only after their WQE has completed. -/
namespace GdaShcaSendRing

open Function GdaShcaQueuePair GuardedMachines List

def claimed : Pc → Bool
  | .poll | .counters | .table | .invalidate | .turn | .sink | .finish => true
  | _ => false

def polled : Pc → Bool
  | .counters | .table | .invalidate | .turn | .sink | .finish => true
  | _ => false

def known : Pc → Bool
  | .invalidate | .turn | .sink | .finish => true
  | _ => false

def clear : Pc → Bool
  | .turn | .sink | .finish => true
  | _ => false

def Claims (σ : Wave) (j : ℕ) : Prop :=
  claimed σ.pc = true ∧ σ.consumer ≤ j ∧ j < σ.consumer + σ.amount

def Cleared (σ : Wave) (j : ℕ) : Prop :=
  clear σ.pc = true ∧ σ.consumer ≤ j ∧ j < σ.consumer + σ.amount

def pending (σ : Wave) : ℕ := if σ.pc = .add then σ.amount else 0

def inflight (σ : Wave) : ℕ := if claimed σ.pc then σ.amount else 0

variable {pc : Pc}

theorem claimed_of_clear (h : clear pc = true) : claimed pc = true := by
  cases pc <;> first | rfl | cases h

theorem claims_of_cleared {σ : Wave} {j : ℕ} (h : Cleared σ j) : Claims σ j :=
  ⟨claimed_of_clear h.1, h.2⟩

structure WaveOk (qp : Qp) (σ : Wave) : Prop where
  whole : σ.pc ≠ .idle → 0 < σ.n ∧ ∀ i < σ.n, σ.own i = true
  broadcast : known σ.pc = false → σ.broadcast = 0 ∨ σ.broadcast < qp.quietCompleted
  posted : σ.pc = .loadCompleted ∨ σ.pc = .cas → σ.posted ≤ qp.quietPosted
  cas : σ.pc = .cas → 0 < σ.amount ∧ σ.amount ≤ σ.n ∧ σ.active + σ.amount ≤ σ.posted
  amount : σ.pc = .add ∨ claimed σ.pc = true → 0 < σ.amount ∧ σ.amount ≤ σ.n
  claim : claimed σ.pc = true →
    qp.quietCompleted ≤ σ.consumer ∧ σ.consumer + σ.amount ≤ qp.cqConsumer
  polled : polled σ.pc = true → σ.consumer + σ.amount ≤ qp.completed
  counters : σ.pc = .table → ∀ i < σ.amount, σ.counters i = (σ.consumer + i) % 2 ^ 16
  known : known σ.pc = true → σ.broadcast + 1 = σ.consumer + σ.amount
  turned : σ.pc = .sink ∨ σ.pc = .finish → qp.quietCompleted = σ.consumer
  sunk : σ.pc = .finish → qp.sqSunk = σ.consumer + σ.amount

variable {N : ℕ}

def AnyCleared (waves : Fin N → Wave) (j : ℕ) : Prop := ∃ w, Cleared (waves w) j

structure Sessions (z : Sizes) (s : State N) : Prop where
  ring : Ring z s.qp s.groups (AnyCleared s.waves)
  wave : ∀ w, WaveOk s.qp (s.waves w)
  active : s.qp.cqConsumer + ∑ w, pending (s.waves w) = s.qp.quietActive
  consumer : s.qp.quietCompleted + ∑ w, inflight (s.waves w) = s.qp.cqConsumer
  active_le : s.qp.quietActive ≤ s.qp.quietPosted
  disjoint : ∀ {w w' j}, Claims (s.waves w) j → Claims (s.waves w') j → w = w'
  sunk_eq : s.qp.sqSunk = s.qp.quietCompleted ∨ ∃ w, (s.waves w).pc = .finish

variable {qp : Qp}

section Lemmas

theorem sum_update (f : Wave → ℕ) (waves : Fin N → Wave) (w : Fin N) (σ : Wave) :
    ∑ v, f (update waves w σ v) + f (waves w) = ∑ v, f (waves v) + f σ := by
  have hcomp : (fun v => f (update waves w σ v)) =
      update (fun v => f (waves v)) w (f σ) := by
    funext v
    exact apply_update (fun _ => f) waves w σ v
  have hsplit := Finset.add_sum_erase Finset.univ (fun v => f (waves v)) (Finset.mem_univ w)
  rw [hcomp, Finset.sum_update_of_mem (Finset.mem_univ w), ← Finset.erase_eq]
  omega

variable {waves : Fin N → Wave}

theorem anyCleared_update {w : Fin N} {σ : Wave} (j : ℕ) :
    AnyCleared (update waves w σ) j ↔ Cleared σ j ∨ ∃ v, v ≠ w ∧ Cleared (waves v) j := by
  constructor
  · grind [AnyCleared]
  · rintro (h | ⟨v, hvw, hv⟩)
    · exact ⟨w, by simpa using h⟩
    · exact ⟨v, by simpa [hvw] using hv⟩

theorem anyCleared_iff (w : Fin N) (j : ℕ) :
    AnyCleared waves j ↔ Cleared (waves w) j ∨ ∃ v, v ≠ w ∧ Cleared (waves v) j := by
  have := @anyCleared_update _ waves w (waves w) j
  rwa [update_eq_self] at this

theorem foldl_max_range (k b : ℕ) {m : ℕ} (hm : 0 < m) (hb : b < k + m) :
    (range m).foldl (fun x i => max x (k + i)) b + 1 = k + m := by
  have hmax : ∀ m, (range (m + 1)).foldl (fun x i => max x (k + i)) b = max b (k + m) := by
    intro m
    induction m with
    | zero => rfl
    | succ m ih =>
      rw [range_succ, foldl_append, ih]
      change max (max b (k + m)) (k + (m + 1)) = _
      omega
  obtain ⟨m, rfl⟩ := Nat.exists_eq_add_of_lt hm
  rw [Nat.zero_add, hmax]
  omega

theorem lanes_eq {σ : Wave} (hown : ∀ i < σ.n, σ.own i = true) (hle : σ.amount ≤ σ.n) :
    σ.lanes = range σ.amount := by
  obtain ⟨d, hd⟩ := Nat.exists_eq_add_of_le hle
  have hlow : (range σ.amount).filter (fun i => σ.own i && decide (i < σ.amount)) =
      range σ.amount := by
    refine filter_eq_self.mpr fun i hi => ?_
    have hlt := mem_range.mp hi
    simp [hlt, hown i (by omega)]
  have hhigh : ((range d).map (σ.amount + ·)).filter
      (fun i => σ.own i && decide (i < σ.amount)) = [] := by
    refine filter_eq_nil_iff.mpr fun i hi => ?_
    obtain ⟨k, -, rfl⟩ := mem_map.mp hi
    simp
  rw [Wave.lanes, hd, range_add, filter_append, hlow, hhigh, append_nil]

theorem others_eq_nil {σ : Wave} (hown : ∀ i < σ.n, σ.own i = true) : σ.others = [] := by
  refine filter_eq_nil_iff.mpr fun i hi => ?_
  simp [hown i (mem_range.mp hi)]

theorem WaveOk.transfer {qp' : Qp} {σ : Wave} (h : WaveOk qp σ)
    (hF : qp.quietCompleted ≤ qp'.quietCompleted)
    (hclaim : claimed σ.pc = true → qp'.quietCompleted ≤ σ.consumer)
    (hturn : σ.pc = .sink ∨ σ.pc = .finish → qp'.quietCompleted = qp.quietCompleted)
    (hS : σ.pc = .finish → qp'.sqSunk = qp.sqSunk) (hC : qp.cqConsumer ≤ qp'.cqConsumer)
    (hQ : qp.quietPosted ≤ qp'.quietPosted) (hN : qp.completed ≤ qp'.completed) : WaveOk qp' σ :=
  ⟨h.whole, fun hk => (h.broadcast hk).imp_right (Nat.lt_of_lt_of_le · hF),
    fun hp => (h.posted hp).trans hQ, h.cas, h.amount,
    fun hc => ⟨hclaim hc, (h.claim hc).2.trans hC⟩, fun hp => (h.polled hp).trans hN, h.counters,
    h.known, fun ht => (hturn ht).trans (h.turned ht), fun hs => (hS hs).trans (h.sunk hs)⟩

end Lemmas

namespace Sessions

variable {z : Sizes} {s : State N} {w : Fin N} {σ : Wave}

theorem after (h : Sessions z s)
    (hring : Ring z qp s.groups (AnyCleared (update s.waves w σ)))
    (hok : WaveOk qp σ) (hothers : ∀ v, v ≠ w → WaveOk qp (s.waves v))
    (hactive : qp.cqConsumer + pending σ + s.qp.quietActive =
      qp.quietActive + (s.qp.cqConsumer + pending (s.waves w)))
    (hconsumer : qp.quietCompleted + inflight σ + s.qp.cqConsumer =
      qp.cqConsumer + (s.qp.quietCompleted + inflight (s.waves w)))
    (hle : qp.quietActive ≤ qp.quietPosted)
    (hclaims : ∀ j, Claims σ j → Claims (s.waves w) j ∨ ∀ v, v ≠ w → ¬ Claims (s.waves v) j)
    (hsunk : qp.sqSunk = qp.quietCompleted ∨ σ.pc = .finish ∨
      ∃ v, v ≠ w ∧ (s.waves v).pc = .finish) : Sessions z (s.afterWave w (qp, σ)) := by
  have hnew : ∀ {v j}, v ≠ w → Claims (update s.waves w σ v) j → ¬ Claims σ j := by
    grind [Sessions]
  refine ⟨hring, fun v => ?_, ?_, ?_, hle, fun {v v' j} hv hv' => ?_, ?_⟩
  · change WaveOk qp (update s.waves w σ v)
    by_cases hvw : v = w
    · subst hvw
      rwa [update_self]
    · rw [update_of_ne hvw]
      exact hothers v hvw
  · have := sum_update pending s.waves w σ
    have := h.active
    change qp.cqConsumer + ∑ v, pending (update s.waves w σ v) = qp.quietActive
    omega
  · have := sum_update inflight s.waves w σ
    have := h.consumer
    change qp.quietCompleted + ∑ v, inflight (update s.waves w σ v) = qp.cqConsumer
    omega
  · change Claims (update s.waves w σ v) j at hv
    change Claims (update s.waves w σ v') j at hv'
    by_cases hvw : v = w <;> by_cases hvw' : v' = w
    · exact hvw.trans hvw'.symm
    · subst hvw
      rw [update_self] at hv
      exact absurd hv (hnew hvw' hv')
    · subst hvw'
      rw [update_self] at hv'
      exact absurd hv' (hnew hvw hv)
    · rw [update_of_ne hvw] at hv
      rw [update_of_ne hvw'] at hv'
      exact h.disjoint hv hv'
  · rcases hsunk with heq | hσ | ⟨v, hvw, hv⟩
    · exact .inl heq
    · exact .inr ⟨w, by change (update s.waves w σ w).pc = _; rwa [update_self]⟩
    · refine .inr ⟨v, ?_⟩
      change (update s.waves w σ v).pc = _
      rwa [update_of_ne hvw]

theorem sunk_others (h : Sessions z s) (hfin : (s.waves w).pc ≠ .finish) :
    s.qp.sqSunk = s.qp.quietCompleted ∨ ∃ v, v ≠ w ∧ (s.waves v).pc = .finish :=
  h.sunk_eq.imp_right fun ⟨v, hv⟩ => ⟨v, fun hvw => hfin (hvw ▸ hv), hv⟩

theorem keep (h : Sessions z s) (hok : WaveOk s.qp σ) (hpend : pending σ = pending (s.waves w))
    (hinf : inflight σ = inflight (s.waves w)) (hclaims : ∀ j, Claims σ j → Claims (s.waves w) j)
    (hcleared : ∀ j, Cleared σ j ↔ Cleared (s.waves w) j)
    (hfin : (s.waves w).pc ≠ .finish) : Sessions z (s.afterWave w (s.qp, σ)) := by
  refine h.after (h.ring.congr fun j => ?_) hok (fun v _ => h.wave v) ?_ ?_ h.active_le
    (fun j hj => .inl (hclaims j hj)) ((h.sunk_others hfin).imp_right .inr)
  · rw [anyCleared_iff w, anyCleared_update, hcleared]
  · omega
  · omega

def free : Pc → Bool
  | .idle | .loadActive | .loadPosted | .loadCompleted | .cas => true
  | _ => false

theorem claimed_of_free (h : free pc = true) :
    claimed pc = false ∧ clear pc = false ∧ known pc = false ∧ polled pc = false ∧ pc ≠ .add ∧
      pc ≠ .table ∧ pc ≠ .sink ∧ pc ≠ .finish := by
  cases pc <;> first | decide | cases h

section

variable (h : Sessions z s)
include h

theorem keep_free (hpc : free (s.waves w).pc = true) (hσ : free σ.pc = true)
    (hwhole : σ.pc ≠ .idle → 0 < σ.n ∧ ∀ i < σ.n, σ.own i = true)
    (hb : σ.broadcast = 0 ∨ σ.broadcast < s.qp.quietCompleted)
    (hposted : σ.pc = .loadCompleted ∨ σ.pc = .cas → σ.posted ≤ s.qp.quietPosted)
    (hcas : σ.pc = .cas → 0 < σ.amount ∧ σ.amount ≤ σ.n ∧ σ.active + σ.amount ≤ σ.posted) :
    Sessions z (s.afterWave w (s.qp, σ)) := by
  obtain ⟨hc, hl, -, -, ha, -, -, hf⟩ := claimed_of_free hpc
  obtain ⟨hc', hl', hk', hp', ha', ht', hs', hf'⟩ := claimed_of_free hσ
  refine h.keep ⟨hwhole, fun _ => hb, hposted, hcas, ?_, ?_, ?_, ?_, ?_, ?_, ?_⟩ ?_ ?_ ?_ ?_ hf
  · rintro (h' | h')
    · exact absurd h' ha'
    · rw [hc'] at h'
      cases h'
  · rw [hc']
    nofun
  · rw [hp']
    nofun
  · exact fun h' => absurd h' ht'
  · rw [hk']
    nofun
  · exact fun h' => h'.elim (absurd · hs') (absurd · hf')
  · exact fun h' => absurd h' hf'
  · rw [pending, pending, if_neg ha, if_neg ha']
  · rw [inflight, inflight, hc, hc']
    rfl
  · rintro j ⟨h', -⟩
    rw [hc'] at h'
    cases h'
  · grind [Cleared]

theorem fresh (hpc : free (s.waves w).pc = true) :
    (s.waves w).broadcast = 0 ∨ (s.waves w).broadcast < s.qp.quietCompleted :=
  (h.wave w).broadcast (claimed_of_free hpc).2.2.1

theorem enter (hpc : (s.waves w).pc = .idle) {n : ℕ} {own : ℕ → Bool} (hn : 0 < n)
    (hown : ∀ i < n, own i = true) :
    Sessions z (s.afterWave w (s.qp, { Wave.start with pc := .loadActive, n, own })) :=
  h.keep_free (by rw [hpc]; rfl) rfl (fun _ => ⟨hn, hown⟩) (.inl rfl) (by simp) nofun

theorem loadActive (hpc : (s.waves w).pc = .loadActive) :
    Sessions z (s.afterWave w
      (s.qp, { s.waves w with pc := .loadPosted, active := s.qp.quietActive })) := by
  have hfree : free (s.waves w).pc = true := by rw [hpc]; rfl
  exact h.keep_free hfree rfl (fun _ => (h.wave w).whole (by rw [hpc]; nofun)) (h.fresh hfree)
    (by simp) nofun

theorem loadPosted (hpc : (s.waves w).pc = .loadPosted) :
    Sessions z (s.afterWave w
      (s.qp, { s.waves w with pc := .loadCompleted, posted := s.qp.quietPosted })) := by
  have hfree : free (s.waves w).pc = true := by rw [hpc]; rfl
  exact h.keep_free hfree rfl (fun _ => (h.wave w).whole (by rw [hpc]; nofun)) (h.fresh hfree)
    (fun _ => le_rfl) nofun

theorem restart (hpc : free (s.waves w).pc = true) (hne : (s.waves w).pc ≠ .idle)
    (hpc' : pc = .loadActive ∨ pc = .idle) :
    Sessions z (s.afterWave w (s.qp, { s.waves w with pc })) := by
  refine h.keep_free hpc ?_ (fun _ => (h.wave w).whole hne) (h.fresh hpc) ?_ ?_
  · rcases hpc' with rfl | rfl <;> rfl
  · rcases hpc' with rfl | rfl <;> simp
  · rcases hpc' with rfl | rfl <;> nofun

theorem choose (hpc : (s.waves w).pc = .loadCompleted)
    (hlt : ¬ (s.waves w).posted ≤ (s.waves w).active) : Sessions z (s.afterWave w (s.qp,
      { s.waves w with
        pc := .cas
        amount := min (s.waves w).n ((s.waves w).posted - (s.waves w).active) })) := by
  have hfree : free (s.waves w).pc = true := by rw [hpc]; rfl
  obtain ⟨hn, hown⟩ := (h.wave w).whole (by rw [hpc]; nofun)
  refine h.keep_free hfree rfl (fun _ => ⟨hn, hown⟩) (h.fresh hfree)
    (fun _ => (h.wave w).posted (.inl hpc)) fun _ => ?_
  change 0 < min _ _ ∧ min _ _ ≤ (s.waves w).n ∧ (s.waves w).active + min _ _ ≤ (s.waves w).posted
  omega

theorem cas (hpc : (s.waves w).pc = .cas) (heq : s.qp.quietActive = (s.waves w).active) :
    Sessions z (s.afterWave w
      ({ s.qp with quietActive := (s.waves w).active + (s.waves w).amount },
        { s.waves w with pc := .add })) := by
  have hw := h.wave w
  obtain ⟨hpos, hle, hposted⟩ := hw.cas hpc
  have hquiet := hw.posted (.inr hpc)
  refine h.after ((h.ring.claims _ s.qp.cqConsumer).congr fun j => ?_)
    ⟨fun _ => hw.whole (by rw [hpc]; nofun), fun _ => hw.broadcast (by rw [hpc]; rfl), by simp,
      nofun, fun _ => ⟨hpos, hle⟩, nofun, nofun, nofun, nofun, by simp, nofun⟩
    (fun v _ => { h.wave v with }) ?_ ?_ (hposted.trans hquiet)
    (fun j hj => absurd hj.1 Bool.false_ne_true)
    ((h.sunk_others (by rw [hpc]; nofun)).imp_right .inr)
  · rw [anyCleared_iff w, anyCleared_update, Cleared, Cleared, hpc]
    simp [clear]
  · simp [pending, hpc]
    omega
  · simp [inflight, hpc, claimed]
    omega

theorem quietCompleted_le_consumer : s.qp.quietCompleted ≤ s.qp.cqConsumer := by
  have := h.consumer
  omega

theorem consumer_le_active : s.qp.cqConsumer ≤ s.qp.quietActive := by
  have := h.active
  omega

theorem add (hpc : (s.waves w).pc = .add) : Sessions z (s.afterWave w
      ({ s.qp with cqConsumer := s.qp.cqConsumer + (s.waves w).amount },
        { s.waves w with pc := .poll, consumer := s.qp.cqConsumer })) := by
  have hw := h.wave w
  have hle := h.quietCompleted_le_consumer
  refine h.after ((h.ring.claims s.qp.quietActive _).congr fun j => ?_)
    ⟨fun _ => hw.whole (by rw [hpc]; nofun), fun _ => hw.broadcast (by rw [hpc]; rfl), by simp,
      nofun, fun _ => hw.amount (.inl hpc), fun _ => ⟨hle, le_rfl⟩, nofun, nofun, nofun, by simp,
      nofun⟩
    (fun v _ => { h.wave v with
      claim := fun hc => ((h.wave v).claim hc).imp_right (Nat.le_add_right_of_le ·) })
    ?_ ?_ h.active_le (fun j hj => .inr fun v _ hv => ?_)
    ((h.sunk_others (by rw [hpc]; nofun)).imp_right .inr)
  · rw [anyCleared_iff w, anyCleared_update, Cleared, Cleared, hpc]
    simp [clear]
  · simp [pending, hpc]
    omega
  · simp [inflight, hpc, claimed]
    omega
  · grind [Sessions, Claims, WaveOk]

theorem keep_claim (hpc : claimed (s.waves w).pc = true) (hσ : claimed σ.pc = true)
    (hclear : clear σ.pc = clear (s.waves w).pc) (hcons : σ.consumer = (s.waves w).consumer)
    (hamt : σ.amount = (s.waves w).amount) (hfin : (s.waves w).pc ≠ .finish) (hok : WaveOk s.qp σ) :
    Sessions z (s.afterWave w (s.qp, σ)) := by
  have hadd : ∀ {pc : Pc}, claimed pc = true → pc ≠ .add := by
    rintro pc hc rfl
    cases hc
  refine h.keep hok ?_ ?_ (fun j hj => ?_) (fun j => ?_) hfin
  · rw [pending, pending, if_neg (hadd hpc), if_neg (hadd hσ)]
  · rw [inflight, inflight, hpc, hσ, hamt]
  · rw [Claims, hcons, hamt] at hj
    exact ⟨hpc, hj.2⟩
  · rw [Cleared, Cleared, hclear, hcons, hamt]

theorem at_claimed (hpc : (s.waves w).pc = pc) (hc : claimed pc = true) :
    WaveOk s.qp (s.waves w) ∧ claimed (s.waves w).pc = true ∧
      0 < (s.waves w).n ∧ ∀ i < (s.waves w).n, (s.waves w).own i = true := by
  refine ⟨h.wave w, hpc ▸ hc, (h.wave w).whole ?_⟩
  rintro hidle
  rw [hpc.symm.trans hidle] at hc
  cases hc

theorem poll_sound (hpc : (s.waves w).pc = .poll) {votes : ℕ}
    (hvotes : votes ≤ (s.waves w).others.length)
    (hpoll : (s.waves w).lanes = [] ∨ (s.waves w).amount ≤
      ((s.waves w).lanes.filter fun i => s.qp.ready z ((s.waves w).consumer + i)).length + votes) :
    (s.waves w).consumer + (s.waves w).amount ≤ s.qp.completed := by
  obtain ⟨hw, hclaimed, -, hown⟩ := h.at_claimed hpc rfl
  obtain ⟨hpos, hle⟩ := hw.amount (.inr hclaimed)
  obtain ⟨hge, hcons⟩ := hw.claim hclaimed
  rw [others_eq_nil hown] at hvotes
  rw [lanes_eq hown hle] at hpoll
  have hall : ((range (s.waves w).amount).filter fun i =>
      s.qp.ready z ((s.waves w).consumer + i)) = range (s.waves w).amount := by
    refine filter_sublist.eq_of_length_le ?_
    rcases hpoll with hnil | hlen
    · rw [range_eq_nil] at hnil
      omega
    · simpa using hlen.trans (Nat.add_le_add_left hvotes _)
  -- the last of its CQEs: a valid entry of an earlier round would have been consumed
  have hlast := filter_eq_self.mp hall ((s.waves w).amount - 1)
    (mem_range.mpr (by omega))
  simp only [Qp.ready, Bool.and_eq_true] at hlast
  obtain ⟨hslot, hge', hlt', hno⟩ := h.ring.valid hlast.2
  have hsunk := h.ring.sunk_le_of_not_cleared hge' hno
  have hcap := z.capacity_le_cq
  have hroom := h.ring.room
  have := h.consumer_le_active
  have := h.active_le
  have := h.ring.touched_le
  by_contra hlt
  have := WrappingRings.add_le_of_mod_eq hslot.symm (by omega)
  omega

theorem poll (hpc : (s.waves w).pc = .poll)
    (hle : (s.waves w).consumer + (s.waves w).amount ≤ s.qp.completed) :
    Sessions z (s.afterWave w (s.qp, { s.waves w with pc := .counters })) := by
  obtain ⟨hw, hclaimed, hwhole⟩ := h.at_claimed hpc rfl
  exact h.keep_claim hclaimed rfl (by rw [hpc]; rfl) rfl rfl (by rw [hpc]; nofun)
    ⟨fun _ => hwhole, fun _ => hw.broadcast (by rw [hpc]; rfl), by simp,
      nofun, fun _ => hw.amount (.inr hclaimed), fun _ => hw.claim hclaimed, fun _ => hle, nofun,
      nofun, by simp, nofun⟩

theorem cqe_wqe (hpc : polled (s.waves w).pc = true) (hclear : clear (s.waves w).pc = false) {i : ℕ}
    (hi : i < (s.waves w).amount) :
    ¬ AnyCleared s.waves ((s.waves w).consumer + i) ∧
      (s.qp.cqe z ((s.waves w).consumer + i)).wqe = (s.waves w).consumer + i := by
  have hw := h.wave w
  have hclaimed : claimed (s.waves w).pc = true := by
    revert hpc
    cases (s.waves w).pc <;> decide
  have hno : ¬ AnyCleared s.waves ((s.waves w).consumer + i) := by
    rintro ⟨v, hv⟩
    obtain rfl := h.disjoint (claims_of_cleared hv)
      (⟨hclaimed, by omega, by omega⟩ : Claims (s.waves w) ((s.waves w).consumer + i))
    rw [Cleared, hclear] at hv
    exact Bool.false_ne_true hv.1
  have hge := (hw.claim hclaimed).1
  have hle := hw.polled hpc
  exact ⟨hno, h.ring.live (by omega) (by omega) hno⟩

theorem counters (hpc : (s.waves w).pc = .counters) :
    Sessions z (s.afterWave w (s.qp, { s.waves w with
        pc := .table
        counters := fun i => (s.qp.cqe z ((s.waves w).consumer + i)).wqeCounter })) := by
  obtain ⟨hw, hclaimed, hwhole⟩ := h.at_claimed hpc rfl
  have hpolled : polled (s.waves w).pc = true := by rw [hpc]; rfl
  refine h.keep_claim hclaimed rfl (by rw [hpc]; rfl) rfl rfl (by rw [hpc]; nofun)
    ⟨fun _ => hwhole, fun _ => hw.broadcast (by rw [hpc]; rfl), by simp,
      nofun, fun _ => hw.amount (.inr hclaimed), fun _ => hw.claim hclaimed,
      fun _ => hw.polled hpolled, fun _ i hi => ?_, nofun, by simp, nofun⟩
  change (s.qp.cqe z _).wqe % 2 ^ 16 = _
  rw [(h.cqe_wqe hpolled (by rw [hpc]; rfl) hi).2]

theorem table_eq (hpc : (s.waves w).pc = .table) {i : ℕ} (hi : i < (s.waves w).amount) :
    s.qp.outstandingWqes ((s.waves w).counters i) = (s.waves w).consumer + i := by
  have hw := h.wave w
  have hpolled : polled (s.waves w).pc = true := by rw [hpc]; rfl
  have hno := (h.cqe_wqe hpolled (by rw [hpc]; rfl) hi).1
  have hge := (hw.claim (by rw [hpc]; rfl)).1
  have hle := hw.polled hpolled
  have hsunk := h.ring.sunk_le_of_not_cleared (by omega) hno
  have hdb := h.ring.completed_le
  rw [hw.counters hpc i hi]
  exact h.ring.table hsunk (.inl (by omega))

theorem table (hpc : (s.waves w).pc = .table) {other : ℕ}
    (hother : (s.waves w).others = [] → other = 0) : Sessions z (s.afterWave w (s.qp,
      { s.waves w with
        pc := .invalidate
        broadcast :=
          (s.waves w).lanes.foldl
            (fun m i => max m (s.qp.outstandingWqes ((s.waves w).counters i)))
            (max (s.waves w).broadcast other) })) := by
  obtain ⟨hw, hclaimed, hwhole⟩ := h.at_claimed hpc rfl
  obtain ⟨hpos, hle⟩ := hw.amount (.inr hclaimed)
  obtain ⟨hge, -⟩ := hw.claim hclaimed
  refine h.keep_claim hclaimed rfl (by rw [hpc]; rfl) rfl rfl (by rw [hpc]; nofun)
    ⟨fun _ => hwhole, nofun, by simp, nofun, fun _ => ⟨hpos, hle⟩,
      fun _ => hw.claim hclaimed, fun _ => hw.polled (by rw [hpc]; rfl), nofun, fun _ => ?_,
      by simp, nofun⟩
  change foldl _ _ _ + 1 = _
  rw [lanes_eq hwhole.2 hle, hother (others_eq_nil hwhole.2), Nat.max_zero]
  have hfold : (range (s.waves w).amount).foldl
      (fun m i => max m (s.qp.outstandingWqes ((s.waves w).counters i))) (s.waves w).broadcast =
      (range (s.waves w).amount).foldl (fun m i => max m ((s.waves w).consumer + i))
        (s.waves w).broadcast := by
    refine foldl_ext _ _ _ fun m i hi => ?_
    rw [h.table_eq hpc (mem_range.mp hi)]
  rw [hfold]
  refine foldl_max_range _ _ hpos ?_
  rcases hw.broadcast (by rw [hpc]; rfl) with hb | hb <;> omega

theorem invalidate (hpc : (s.waves w).pc = .invalidate) :
    Sessions z (s.afterWave w (s.qp.invalidate z ((s.waves w).lanes.map ((s.waves w).consumer + ·)),
        { s.waves w with pc := .turn })) := by
  obtain ⟨hw, hclaimed, hwhole⟩ := h.at_claimed hpc rfl
  have hpolled : polled (s.waves w).pc = true := by rw [hpc]; rfl
  obtain ⟨hpos, hle⟩ := hw.amount (.inr hclaimed)
  obtain ⟨hge, hcons⟩ := hw.claim hclaimed
  have hdone := hw.polled hpolled
  rw [lanes_eq hwhole.2 hle]
  have hmem : ∀ j, j ∈ (range (s.waves w).amount).map ((s.waves w).consumer + ·) ↔
      (s.waves w).consumer ≤ j ∧ j < (s.waves w).consumer + (s.waves w).amount := by
    intro j
    simp only [mem_map, mem_range]
    constructor
    · rintro ⟨i, hi, rfl⟩
      omega
    · intro hj
      exact ⟨j - (s.waves w).consumer, by omega, by omega⟩
  have hnd : ((range (s.waves w).amount).map ((s.waves w).consumer + ·)).Nodup :=
    nodup_range.map fun _ _ => Nat.add_left_cancel
  have hring := h.ring.invalidate hnd fun j hj => by
      obtain ⟨hj1, hj2⟩ := (hmem j).mp hj
      have hno := (h.cqe_wqe hpolled (by rw [hpc]; rfl) (i := j - (s.waves w).consumer)
        (by omega)).1
      rw [Nat.add_sub_cancel' hj1] at hno
      exact ⟨by omega, by omega, hno⟩
  refine h.after (hring.congr fun j => ?_)
    ⟨fun _ => hwhole, nofun, by simp, nofun, fun _ => ⟨hpos, hle⟩,
      fun _ => ⟨hge, hcons⟩, fun _ => hdone, nofun, fun _ => hw.known (by rw [hpc]; rfl), by simp,
      nofun⟩
    (fun v _ => { h.wave v with }) ?_ ?_ h.active_le (fun j hj => .inl ⟨hclaimed, hj.2⟩)
    ((h.sunk_others (by rw [hpc]; nofun)).imp_right .inr)
  · rw [anyCleared_iff w, anyCleared_update, hmem, Cleared, Cleared, hpc]
    simp [clear, or_comm]
  · simp [pending, hpc, Qp.invalidate]
    omega
  · simp [inflight, hpc, claimed, Qp.invalidate]
    omega

theorem turn (hpc : (s.waves w).pc = .turn)
    (hturn : (s.waves w).leads → s.qp.quietCompleted = (s.waves w).consumer) :
    Sessions z (s.afterWave w (s.qp, { s.waves w with pc := .sink })) := by
  obtain ⟨hw, hclaimed, hn, hown⟩ := h.at_claimed hpc rfl
  exact h.keep_claim hclaimed rfl (by rw [hpc]; rfl) rfl rfl (by rw [hpc]; nofun)
    ⟨fun _ => ⟨hn, hown⟩, nofun, by simp, nofun, fun _ => hw.amount (.inr hclaimed),
      fun _ => hw.claim hclaimed, fun _ => hw.polled (by rw [hpc]; rfl), nofun,
      fun _ => hw.known (by rw [hpc]; rfl), fun _ => hturn (hown 0 hn), nofun⟩

theorem turn_unique {v : Fin N} (hv : claimed (s.waves v).pc = true)
    (hw : claimed (s.waves w).pc = true) (hcv : (s.waves v).consumer = s.qp.quietCompleted)
    (hcw : (s.waves w).consumer = s.qp.quietCompleted) : v = w := by
  have hpv := ((h.wave v).amount (.inr hv)).1
  have hpw := ((h.wave w).amount (.inr hw)).1
  exact h.disjoint (j := s.qp.quietCompleted) ⟨hv, by omega, by omega⟩ ⟨hw, by omega, by omega⟩

theorem sink (hpc : (s.waves w).pc = .sink) : Sessions z (s.afterWave w
      ({ s.qp with sqSunk := if (s.waves w).leads then max s.qp.sqSunk ((s.waves w).broadcast + 1)
            else s.qp.sqSunk },
        { s.waves w with pc := .finish })) := by
  obtain ⟨hw, hclaimed, hn, hown⟩ := h.at_claimed hpc rfl
  have hturn := hw.turned (.inl hpc)
  have hknown := hw.known (by rw [hpc]; rfl)
  have hdone := hw.polled (by rw [hpc]; rfl)
  have hnofin : ∀ v, (s.waves v).pc ≠ .finish := by
    grind [Sessions, claimed, WaveOk, turn_unique]
  have hsunk : s.qp.sqSunk = s.qp.quietCompleted :=
    h.sunk_eq.resolve_right fun ⟨v, hv⟩ => hnofin v hv
  have hnew : (if (s.waves w).leads then max s.qp.sqSunk ((s.waves w).broadcast + 1)
      else s.qp.sqSunk) = (s.waves w).consumer + (s.waves w).amount := by
    rw [if_pos (show (s.waves w).leads = true from hown 0 hn)]
    omega
  rw [hnew]
  refine h.after ((h.ring.sink (by omega) hdone fun {j} hj hlt => ⟨w, ?_⟩).congr fun j => ?_)
    ⟨fun _ => ⟨hn, hown⟩, nofun, by simp, nofun, fun _ => hw.amount (.inr hclaimed),
      fun _ => hw.claim hclaimed, fun _ => hdone, nofun, fun _ => hknown, fun _ => hturn,
      fun _ => rfl⟩
    (fun v _ => { h.wave v with sunk := fun hv => absurd hv (hnofin v) }) ?_ ?_ h.active_le
    (fun j hj => .inl ⟨hclaimed, hj.2⟩) (.inr (.inl rfl))
  · exact ⟨by rw [hpc]; rfl, by omega, hlt⟩
  · rw [anyCleared_iff w, anyCleared_update, Cleared, Cleared, hpc]
    simp [clear]
  · simp [pending, hpc]
    omega
  · simp [inflight, hpc, claimed]
    omega

theorem finish (hpc : (s.waves w).pc = .finish) : Sessions z (s.afterWave w
      ({ s.qp with quietCompleted :=
            if (s.waves w).leads then s.qp.quietCompleted + (s.waves w).amount
            else s.qp.quietCompleted },
        { s.waves w with pc := .loadActive })) := by
  obtain ⟨hw, hclaimed, hn, hown⟩ := h.at_claimed hpc rfl
  have hturn := hw.turned (.inr hpc)
  have hknown := hw.known (by rw [hpc]; rfl)
  have hsunk := hw.sunk hpc
  rw [if_pos (show (s.waves w).leads = true from hown 0 hn)]
  -- the ranges of the others lie past this one
  have hpast : ∀ {v j}, v ≠ w → Claims (s.waves v) j →
      s.qp.quietCompleted + (s.waves w).amount ≤ j := by
    grind [Sessions, Claims, WaveOk]
  refine h.after (h.ring.finish (by omega) (by omega) fun j => ?_)
    ⟨fun _ => ⟨hn, hown⟩, fun _ => .inr ?_, by simp, nofun, by simp [claimed], nofun, nofun, nofun,
      nofun, by simp, nofun⟩
    (fun v hvw => (h.wave v).transfer (Nat.le_add_right _ _) (fun hc => ?_) (fun hv => ?_)
      (fun _ => rfl) le_rfl le_rfl le_rfl) ?_ ?_ h.active_le
    (fun j hj => absurd hj.1 Bool.false_ne_true) (.inl (hsunk.trans (congrArg (· + _) hturn.symm)))
  · rw [anyCleared_update, anyCleared_iff w]
    constructor
    · rintro (hc | ⟨v, hvw, hv⟩)
      · exact absurd hc.1 Bool.false_ne_true
      · exact ⟨.inr ⟨v, hvw, hv⟩, hpast hvw (claims_of_cleared hv)⟩
    · rintro ⟨hc | hv, hj⟩
      · have := hc.2.2
        omega
      · exact .inr hv
  · change (s.waves w).broadcast < _ + _
    omega
  · have hpos := ((h.wave v).amount (.inr hc)).1
    exact hpast hvw ⟨hc, le_rfl, by omega⟩
  · grind [Sessions, claimed, WaveOk, turn_unique]
  · simp [pending, hpc]
    omega
  · simp [inflight, hpc, claimed]
    omega

end

end Sessions

variable {g : Fin N}

section Runs

variable {z : Sizes} {s t : State N} {e : Event N}

variable {r : Qp × Group}

theorem groupStep_counts {c : Group} {e : GroupEvent} (h : groupStep z qp c e = some r) :
    r.1.quietCompleted = qp.quietCompleted ∧ r.1.sqSunk = qp.sqSunk ∧
      r.1.cqConsumer = qp.cqConsumer ∧ r.1.quietActive = qp.quietActive ∧
      r.1.completed = qp.completed ∧ qp.quietPosted ≤ r.1.quietPosted := by
  rw [groupStep.eq_def] at h
  split at h <;> (try split at h) <;> cases h
  all_goals
    exact ⟨rfl, rfl, rfl, rfl, rfl, by first | exact le_rfl | exact Nat.le_add_right _ _⟩

/-- A step outside the waves leaves the counters of the quiet as they are. -/
theorem Sessions.outside (h : Sessions z s) {groups : Fin N → Group}
    (hring : Ring z qp groups (AnyCleared s.waves))
    (hF : qp.quietCompleted = s.qp.quietCompleted) (hS : qp.sqSunk = s.qp.sqSunk)
    (hC : qp.cqConsumer = s.qp.cqConsumer) (hA : qp.quietActive = s.qp.quietActive)
    (hQ : s.qp.quietPosted ≤ qp.quietPosted) (hN : s.qp.completed ≤ qp.completed) :
    Sessions z { s with qp, groups } := by
  refine ⟨hring, fun w => (h.wave w).transfer hF.ge (fun hc => ?_) (fun _ => hF)
    (fun _ => hS) hC.ge hQ hN, ?_, ?_, ?_, h.disjoint, ?_⟩
  · exact hF.le.trans ((h.wave w).claim hc).1
  · exact (congrArg (· + _) hC).trans (h.active.trans hA.symm)
  · exact (congrArg (· + _) hF).trans (h.consumer.trans hC.symm)
  · exact hA.le.trans (h.active_le.trans hQ)
  · exact h.sunk_eq.imp_left fun heq => hS.trans (heq.trans hF.symm)

theorem Sessions.group (h : Sessions z s) {e : GroupEvent}
    (hs : groupStep z s.qp (s.groups g) e = some r) : Sessions z (s.afterGroup g r) := by
  obtain ⟨hF, hS, hC, hA, hN, hQ⟩ := groupStep_counts hs
  exact h.outside (h.ring.groupStep hs) hF hS hC hA hQ hN.ge

theorem complete_counts {qp' : Qp} (h : qp.complete z = some qp') :
    qp'.quietCompleted = qp.quietCompleted ∧ qp'.sqSunk = qp.sqSunk ∧
      qp'.cqConsumer = qp.cqConsumer ∧ qp'.quietActive = qp.quietActive ∧
      qp'.quietPosted = qp.quietPosted ∧ qp.completed ≤ qp'.completed := by
  rw [Qp.complete] at h
  split at h
  · cases h
    exact ⟨rfl, rfl, rfl, rfl, rfl, Nat.le_succ _⟩
  · cases h

theorem Sessions.complete (h : Sessions z s) (hs : s.qp.complete z = some qp) :
    Sessions z { s with qp } := by
  obtain ⟨hF, hS, hC, hA, hQ, hN⟩ := complete_counts hs
  exact h.outside (h.ring.complete hs) hF hS hC hA hQ.ge hN

def WholeWave : Event N → Prop
  | .wave _ (.enter n own) => ∀ i < n, own i = true
  | _ => True

theorem Sessions.waveStep (h : Sessions z s) {w : Fin N} {e : WaveEvent} {r : Qp × Wave}
    (hwhole : WholeWave (.wave w e)) (hs : waveStep z s.qp (s.waves w) e = some r) :
    Sessions z (s.afterWave w r) := by
  have hlead : (s.waves w).pc ≠ .idle → (s.waves w).leads = true := fun hne =>
    ((h.wave w).whole hne).2 0 ((h.wave w).whole hne).1
  cases e with
  | enter n own =>
    grind [WholeWave, waveStep, Sessions.enter]
  | loadActive | loadPosted | counters | invalidate | sink | finish =>
    rw [GdaShcaQueuePair.waveStep] at hs
    split at hs
    next hpc =>
      cases hs
      first
        | exact h.loadActive hpc
        | exact h.loadPosted hpc
        | exact h.counters hpc
        | exact h.invalidate hpc
        | exact h.sink hpc
        | exact h.finish hpc
    · cases hs
  | loadCompleted =>
    rw [GdaShcaQueuePair.waveStep] at hs
    split at hs
    next hpc =>
      have hfree : Sessions.free (s.waves w).pc = true := by rw [hpc]; rfl
      grind [Sessions.restart, Sessions.choose]
    · cases hs
  | cas other =>
    rw [GdaShcaQueuePair.waveStep] at hs
    split at hs
    next hpc =>
      have hne : (s.waves w).pc ≠ .idle := by rw [hpc]; nofun
      rw [if_pos (hlead hne)] at hs
      split at hs
      next heq =>
        cases hs
        exact h.cas hpc heq
      · cases hs
        exact h.restart (by rw [hpc]; rfl) hne (.inl rfl)
    · cases hs
  | add other =>
    grind [waveStep, Sessions.add]
  | poll votes =>
    grind [waveStep, Sessions.poll_sound, Sessions.poll]
  | table | turn =>
    rw [GdaShcaQueuePair.waveStep] at hs
    split at hs
    next hc =>
      cases hs
      first | exact h.table hc.1 hc.2 | exact h.turn hc.1 hc.2
    · cases hs

theorem sessions_initial (z : Sizes) : Sessions z (initial N) := by
  refine ⟨(ring_initial z).congr fun j => ⟨False.elim, fun ⟨_, hc⟩ => Bool.false_ne_true hc.1⟩,
    fun w => ⟨fun hne => absurd rfl hne, fun _ => .inl rfl, ?_, nofun, ?_, nofun, nofun, nofun,
      nofun, ?_, nofun⟩, ?_, ?_, le_rfl, fun hc => absurd hc.1 Bool.false_ne_true, .inl rfl⟩
  · simp [initial, Wave.start]
  · simp [initial, Wave.start, claimed]
  · simp [initial, Wave.start]
  · simp [initial, Qp.initial, Wave.start, pending]
  · simp [initial, Qp.initial, Wave.start, inflight, claimed]

def WaveCall : Event N → Prop
  | .single _ _ => False
  | _ => True

instance (e : Event N) : Decidable (WaveCall e) := by
  cases e <;> dsimp only [WaveCall] <;> infer_instance

instance (e : Event N) : Decidable (WholeWave e) := by
  rcases e with _ | ⟨_, _ | _⟩ | _ | _ <;> dsimp only [WholeWave] <;> infer_instance

theorem Sessions.step (h : Sessions z s) (hwhole : WholeWave e) (hcall : WaveCall e)
    (hs : GdaShcaQueuePair.step z s e = some t) : Sessions z t := by
  cases e with
  | group g e =>
    obtain ⟨r, hr, rfl⟩ := Option.map_eq_some_iff.mp hs
    exact h.group hr
  | wave w e =>
    obtain ⟨r, hr, rfl⟩ := Option.map_eq_some_iff.mp hs
    exact h.waveStep hwhole hr
  | single x e => exact hcall.elim
  | complete =>
    obtain ⟨qp, hqp, rfl⟩ := Option.map_eq_some_iff.mp hs
    exact h.complete hqp

theorem sessions_of_run (h : (machine z N).Run (fun _ e => WaveCall e ∧ WholeWave e) s) :
    Sessions z s :=
  h.ofStep_induct (sessions_initial z) fun _ _ _ hs hok he => hs.step hok.2 hok.1 he

end Runs

def overwritten (z : Sizes) (s : State N) : Event N → Option ℕ
  | .group g (.build lane) =>
    match s.groups g with
    | .building c _ _ => s.qp.slots ((c + lane) % z.sqWqeCnt)
    | _ => none
  | _ => none

section Results

variable {z : Sizes} {s t : State N} {e : Event N}

theorem Sessions.overwritten_lt (h : Sessions z s) (hs : GdaShcaQueuePair.step z s e = some t)
    {p : ℕ} (hp : overwritten z s e = some p) : p < s.qp.completed := by
  match e, hp with
  | .group g (.build lane), hp =>
    obtain ⟨r, hr, -⟩ := Option.map_eq_some_iff.mp hs
    cases hg : s.groups g with
    | building c n lanes =>
      rw [hg, groupStep] at hr
      split at hr
      next hl =>
        rw [overwritten, hg] at hp
        exact h.ring.built_over hg hl hp
      · cases hr
    | idle | waiting | sawTouched | rung | counted =>
      rw [overwritten, hg] at hp
      cases hp

theorem Sessions.touched_sub_le (h : Sessions z s) {c n dbTouched : ℕ}
    (hg : s.groups g = .sawTouched c n dbTouched) : dbTouched - s.qp.sqSunk ≤ z.capacity := by
  have hok := h.ring.group g
  rw [hg] at hok
  have := hok.2
  have := h.ring.touched_le
  have := h.ring.room
  omega

/-- In every run of posts and quiets by whole waves a post that has room never overwrites a WQE
that has not completed, the number of free entries does not fall below zero, each doorbell is
rung when the one before has told the NIC of all WQEs before it, and `outstanding_wqes` maps
the counter of each CQE that a lane has seen to its WQE. -/
theorem send_ring_sound (z : Sizes) {s t : State N} {e : Event N}
    (hrun : (machine z N).Run (fun _ e => WaveCall e ∧ WholeWave e) s)
    (hs : step z s e = some t) :
    (∀ p, overwritten z s e = some p → p < s.qp.completed) ∧
    (∀ g c n dbTouched, s.groups g = .sawTouched c n dbTouched →
      dbTouched - s.qp.sqSunk ≤ z.capacity) ∧
    (∀ g c n, s.groups g = .building c n [] → e = .group g .ring → s.qp.doorbell = c) ∧
    (∀ w other, e = .wave w (.table other) → ∀ i ∈ (s.waves w).lanes,
      (s.waves w).counters i = (s.qp.cqe z ((s.waves w).consumer + i)).wqeCounter ∧
      s.qp.outstandingWqes ((s.waves w).counters i) =
        (s.qp.cqe z ((s.waves w).consumer + i)).wqe) := by
  have h := sessions_of_run hrun
  refine ⟨fun p hp => h.overwritten_lt hs hp, fun g c n dbTouched hg => h.touched_sub_le hg,
    fun g c n hg he => ?_, fun w other he i hi => ?_⟩
  · subst he
    obtain ⟨r, hr, -⟩ := Option.map_eq_some_iff.mp hs
    rw [hg, groupStep] at hr
    split at hr
    next heq =>
      subst heq
      exact (h.ring.doorbell_eq hg).1.1
    · cases hr
  · subst he
    obtain ⟨r, hr, -⟩ := Option.map_eq_some_iff.mp hs
    rw [waveStep] at hr
    split at hr
    next hc =>
      have hlt : i < (s.waves w).amount := by
        have := mem_filter.mp hi
        simp at this
        exact this.2.2
      have hpolled : polled (s.waves w).pc = true := by rw [hc.1]; rfl
      have hwqe := (h.cqe_wqe hpolled (by rw [hc.1]; rfl) hlt).2
      rw [Cqe.wqeCounter, hwqe]
      exact ⟨(h.wave w).counters hc.1 i hlt, h.table_eq hc.1 hlt⟩
    · cases hr

end Results

def pairs : Sizes := ⟨2, 2, by decide, by decide⟩

def posts (g : Fin N) : List (Event N) :=
  [.post 1, .loadTouched, .loadSunk, .build 0, .ring, .count, .touch].map (.group g)

def round (w : Fin N) (votes other : ℕ) : List (Event N) :=
  [.loadActive, .loadPosted, .loadCompleted, .cas false, .add 0, .poll votes, .counters,
    .table other, .invalidate, .turn, .sink, .finish].map (.wave w)

theorem send_ring_sound_third :
    ∃ s t, (machine pairs 3).Run (fun _ e => WaveCall e ∧ WholeWave e) s ∧
      step pairs s (.group 2 (.build 0)) = some t ∧
      overwritten pairs s (.group 2 (.build 0)) = some 0 ∧ 0 < s.qp.completed := by
  obtain ⟨s, hrun, hP⟩ := run_of_replay (machine pairs 3)
    (fun _ e => WaveCall e ∧ WholeWave e)
    (posts 0 ++ posts 1 ++ [.complete, .group 2 (.post 1), .group 2 .loadTouched,
      .group 2 .loadSunk, .wave 2 (.enter 1 fun _ => true)] ++ round 2 0 0 ++
      [.group 2 .loadTouched, .group 2 .loadSunk])
    (fun s => (step pairs s (.group 2 (.build 0))).isSome ∧
      overwritten pairs s (.group 2 (.build 0)) = some 0) (by decide +kernel)
  obtain ⟨t, ht⟩ := Option.isSome_iff_exists.mp hP.1
  exact ⟨s, t, hrun, ht, hP.2, (send_ring_sound pairs hrun ht).1 0 hP.2⟩

/-- A wave with one lane on this queue pair and one on another, both rings full. Both lanes wait
for room in one call of `shca_quiet`: the first claims two CQEs, of which only the first has
been written, and the second finds the CQE of its own queue pair in the place of the second.
WQE 1 counts as consumed and is overwritten before it has completed. -/
theorem overwrites_uncompleted :
    ∃ s t, (machine pairs 4).Run (fun _ e => WaveCall e) s ∧
      step pairs s (.group 3 (.build 0)) = some t ∧
      overwritten pairs s (.group 3 (.build 0)) = some 1 ∧ s.qp.completed = 1 := by
  obtain ⟨s, hrun, hP⟩ := run_of_replay (machine pairs 4) (fun _ e => WaveCall e)
    (posts 0 ++ posts 1 ++ [.complete, .group 2 (.post 1), .group 2 .loadTouched,
      .group 2 .loadSunk, .wave 2 (.enter 2 fun i => i == 0)] ++ round 2 1 1 ++
      (posts 2).drop 1 ++ (posts 3).take 3)
    (fun s => (step pairs s (.group 3 (.build 0))).isSome ∧
      overwritten pairs s (.group 3 (.build 0)) = some 1 ∧ s.qp.completed = 1)
    (by decide +kernel)
  obtain ⟨t, ht⟩ := Option.isSome_iff_exists.mp hP.1
  exact ⟨s, t, hrun, ht, hP.2.1, hP.2.2⟩

section Sequences

def Alone (s : State N) : Event N → Prop
  | .wave _ (.enter _ _) => (∀ v, (s.waves v).pc = .idle) ∧ ∀ x, s.singles x = .idle
  | .group _ (.post _) | .single _ .call =>
    (∀ g, s.groups g = .idle) ∧ (∀ v, (s.waves v).pc = .idle) ∧ ∀ x, s.singles x = .idle
  | _ => True

instance (s : State N) (e : Event N) : Decidable (Alone s e) := by
  rcases e with ⟨_, _ | _⟩ | ⟨_, _ | _⟩ | ⟨_, _ | _⟩ | _ <;> dsimp only [Alone] <;> infer_instance

def Drained (s : State N) : Event N → Prop
  | .single _ .call => s.qp.quietPosted = s.qp.quietCompleted
  | e => WholeWave e

instance (s : State N) (e : Event N) : Decidable (Drained s e) := by
  rcases e with _ | _ | ⟨_, _ | _⟩ | _ <;> dsimp only [Drained] <;> infer_instance

structure Resting (s : State N) (x : Fin N) : Prop where
  groups : ∀ g, s.groups g = .idle
  waves : ∀ v, (s.waves v).pc = .idle
  drained : s.qp.quietPosted = s.qp.quietCompleted
  single : ∃ u, s.singles x = .top u ∨ s.singles x = .sawCompleted u s.qp.quietCompleted

structure Sequential (z : Sizes) (s : State N) : Prop where
  sessions : Sessions z s
  resting : ∀ x, s.singles x ≠ .idle → Resting s x
  one : ∀ {v v'}, (s.waves v).pc ≠ .idle → (s.waves v').pc ≠ .idle → v = v'

namespace Sequential

variable {z : Sizes} {s t : State N}

section

variable (h : Sequential z s)
include h

theorem group {e : GroupEvent} {r : Qp × Group} (hal : Alone s (.group g e))
    (hs : groupStep z s.qp (s.groups g) e = some r) : Sequential z (s.afterGroup g r) := by
  refine ⟨h.sessions.group hs, fun x hx => ?_, h.one⟩
  have hidle := (h.resting x hx).groups g
  rw [hidle] at hs
  cases e with
  | post n => exact absurd (hal.2.2 x) hx
  | loadTouched | loadSunk | build | ring | count | touch => cases hs

theorem wave {w : Fin N} {e : WaveEvent} {r : Qp × Wave} (hal : Alone s (.wave w e))
    (hwhole : WholeWave (.wave w e)) (hs : waveStep z s.qp (s.waves w) e = some r) :
    Sequential z (s.afterWave w r) := by
  -- a wave that steps is in its call or enters it, so no single lane is at work
  have hbusy : (∀ v, v ≠ w → (s.waves v).pc = .idle) ∧ ∀ x, s.singles x = .idle := by
    by_cases hpc : (s.waves w).pc = .idle
    · cases e with
      | enter n own => exact ⟨fun v _ => hal.1 v, hal.2⟩
      | loadActive | loadPosted | loadCompleted | cas | add | poll | counters | table
      | invalidate | turn | sink | finish =>
        simp [waveStep, hpc] at hs
    · refine ⟨fun v hvw => ?_, fun x => ?_⟩
      · by_contra hv
        exact hvw (h.one hv hpc)
      · by_contra hx
        exact hpc ((h.resting x hx).waves w)
  refine ⟨h.sessions.waveStep hwhole hs, fun x hx => absurd (hbusy.2 x) hx, fun {v v'} hv hv' => ?_⟩
  have heq : ∀ {v}, ((s.afterWave w r).waves v).pc ≠ .idle → v = w := by
    intro v hv
    by_contra hvw
    refine hv ?_
    change (update s.waves w r.2 v).pc = _
    rw [update_of_ne hvw]
    exact hbusy.1 v hvw
  exact (heq hv).trans (heq hv').symm

theorem complete (hs : s.qp.complete z = some qp) : Sequential z { s with qp } := by
  obtain ⟨hF, -, -, -, hQ, -⟩ := complete_counts hs
  refine ⟨h.sessions.complete hs, fun x hx => ?_, h.one⟩
  obtain ⟨hg, hw, hd, u, hu⟩ := h.resting x hx
  refine ⟨hg, hw, hQ.trans (hd.trans hF.symm), u, ?_⟩
  change s.singles x = _ ∨ s.singles x = .sawCompleted u qp.quietCompleted
  rw [hF]
  exact hu

theorem afterSingle {x : Fin N} {c : Single}
    (hrest : ∀ y, (s.afterSingle x (s.qp, c)).singles y ≠ .idle →
      Resting (s.afterSingle x (s.qp, c)) y) :
    Sequential z (s.afterSingle x (s.qp, c)) :=
  ⟨{ h.sessions with }, hrest, h.one⟩

theorem single {x : Fin N} {e : SingleEvent} {r : Qp × Single} (hal : Alone s (.single x e))
    (hdr : Drained s (.single x e)) (hs : singleStep z s.qp (s.singles x) e = some r) :
    Sequential z (s.afterSingle x r) := by
  have hself : ∀ c, (s.afterSingle x (s.qp, c)).singles x = c := fun c => update_self ..
  have hne : ∀ {c y}, y ≠ x → (s.afterSingle x (s.qp, c)).singles y = s.singles y :=
    fun hy => update_of_ne hy ..
  by_cases hx : s.singles x = .idle
  · rw [hx] at hs
    cases e with
    | call =>
      cases hs
      refine h.afterSingle fun y hy => ?_
      by_cases hyx : y = x
      · subst hyx
        exact ⟨hal.1, hal.2.1, hdr, _, .inl (hself _)⟩
      · rw [hne hyx] at hy
        exact absurd (hal.2.2 y) hy
    | loadCompleted | loadPosted | poll | counter | table | invalidate | sink | store => cases hs
  · obtain ⟨hg, hw, hd, u, hu⟩ := h.resting x hx
    have hothers : ∀ {c}, (∃ u, c = .top u ∨ c = .sawCompleted u s.qp.quietCompleted) ∨ c = .idle →
        ∀ y, (s.afterSingle x (s.qp, c)).singles y ≠ .idle →
          Resting (s.afterSingle x (s.qp, c)) y := by
      intro c hc y hy
      by_cases hyx : y = x
      · subst hyx
        rw [hself] at hy
        refine ⟨hg, hw, hd, ?_⟩
        rw [hself]
        exact hc.resolve_right hy
      · rw [hne hyx] at hy
        obtain ⟨-, -, -, u', hu'⟩ := h.resting y hy
        exact ⟨hg, hw, hd, u', by rwa [hne hyx]⟩
    rcases hu with hu | hu
    · rw [hu] at hs
      cases e with
      | loadCompleted =>
        cases hs
        exact h.afterSingle (hothers (.inl ⟨u, .inr rfl⟩))
      | call | loadPosted | poll | counter | table | invalidate | sink | store => cases hs
    · rw [hu] at hs
      cases e with
      | loadPosted =>
        cases hs
        rw [if_pos hd.symm]
        exact h.afterSingle (hothers (.inr rfl))
      | call | loadCompleted | poll | counter | table | invalidate | sink | store => cases hs

theorem step {e : Event N} (hal : Alone s e) (hdr : Drained s e)
    (hs : GdaShcaQueuePair.step z s e = some t) : Sequential z t := by
  cases e with
  | group g e =>
    obtain ⟨r, hr, rfl⟩ := Option.map_eq_some_iff.mp hs
    exact h.group hal hr
  | wave w e =>
    obtain ⟨r, hr, rfl⟩ := Option.map_eq_some_iff.mp hs
    exact h.wave hal hdr hr
  | single x e =>
    obtain ⟨r, hr, rfl⟩ := Option.map_eq_some_iff.mp hs
    exact h.single hal hdr hr
  | complete =>
    obtain ⟨qp, hqp, rfl⟩ := Option.map_eq_some_iff.mp hs
    exact h.complete hqp

end

theorem initial (z : Sizes) : Sequential z (GdaShcaQueuePair.initial N) :=
  ⟨sessions_initial z, fun _ hx => absurd rfl hx, fun hv => absurd rfl hv⟩

theorem counts_eq (h : Sequential z s) (hidle : ∀ v, (s.waves v).pc = .idle) :
    s.qp.cqConsumer = s.qp.quietCompleted ∧ s.qp.quietActive = s.qp.quietCompleted := by
  have hp : ∑ w, pending (s.waves w) = 0 := Finset.sum_eq_zero fun w _ => by
    simp [pending, hidle w]
  have hi : ∑ w, inflight (s.waves w) = 0 := Finset.sum_eq_zero fun w _ => by
    simp [inflight, hidle w, claimed]
  have := h.sessions.active
  have := h.sessions.consumer
  omega

theorem waits (h : Sequential z s) {w : Fin N} (hpc : (s.waves w).pc = .poll) :
    (∀ j, j ∈ s.qp.taken ↔ j < (s.waves w).consumer) ∧
      (s.waves w).consumer + (s.waves w).amount ≤ s.qp.quietPosted := by
  have hidle : ∀ v, v ≠ w → (s.waves v).pc = .idle := by
    intro v hvw
    by_contra hv
    exact hvw (h.one hv (by rw [hpc]; nofun))
  have hi : ∑ v, inflight (s.waves v) = (s.waves w).amount := by
    rw [Finset.sum_eq_single w (fun v _ hvw => by simp [inflight, hidle v hvw, claimed])
      (fun hw => absurd (Finset.mem_univ w) hw)]
    simp [inflight, hpc, claimed]
  obtain ⟨hge, hle⟩ := (h.sessions.wave w).claim (by rw [hpc]; rfl)
  have hcons := h.sessions.consumer
  have hact := h.sessions.consumer_le_active
  have hact' := h.sessions.active_le
  have hno : ∀ j, ¬ AnyCleared s.waves j := by
    rintro j ⟨v, hv⟩
    by_cases hvw : v = w
    · rw [hvw, Cleared, hpc] at hv
      exact Bool.false_ne_true hv.1
    · rw [Cleared, hidle v hvw] at hv
      exact Bool.false_ne_true hv.1
  refine ⟨fun j => ?_, by omega⟩
  rw [h.sessions.ring.taken_iff, or_iff_left (hno j)]
  omega

end Sequential

/-- In every sequence of calls, one at a time, by whole waves, in which `shca_quiet_single` is
called with nothing outstanding, the consumer index, the claimed count and the completed count
are equal between calls, a wave in `shca_quiet` waits for posted CQEs from the first one that
has not been consumed, and a lane in `shca_quiet_single` waits for none. -/
theorem quiets_agree (z : Sizes) {s : State N}
    (hrun : (machine z N).Run (fun s e => Alone s e ∧ Drained s e) s) :
    ((∀ v, (s.waves v).pc = .idle) →
      s.qp.cqConsumer = s.qp.quietCompleted ∧ s.qp.quietActive = s.qp.quietCompleted) ∧
    (∀ w, (s.waves w).pc = .poll →
      (∀ j, j ∈ s.qp.taken ↔ j < (s.waves w).consumer) ∧
      (s.waves w).consumer + (s.waves w).amount ≤ s.qp.quietPosted) ∧
    (∀ x upto completed, s.singles x ≠ .polling upto completed) := by
  have h : Sequential z s :=
    hrun.ofStep_induct (.initial z) fun _ _ _ hs hok he => hs.step hok.1 hok.2 he
  refine ⟨h.counts_eq, fun w hpc => h.waits hpc, fun x u f hx => ?_⟩
  obtain ⟨-, -, -, u', hu⟩ := h.resting x (by rw [hx]; nofun)
  rw [hx] at hu
  rcases hu with hu | hu <;> cases hu

theorem quiets_agree_second :
    ∃ s : State 2, (machine pairs 2).Run (fun s e => Alone s e ∧ Drained s e) s ∧
      (s.waves 0).pc = .poll ∧ (s.waves 0).consumer = 1 ∧ 1 ∉ s.qp.taken := by
  obtain ⟨s, hrun, hP⟩ := run_of_replay (machine pairs 2)
    (fun s e => Alone s e ∧ Drained s e)
    ([.single 1 .call, .single 1 .loadCompleted, .single 1 .loadPosted] ++ posts 0 ++
      [.complete, .wave 0 (.enter 1 fun _ => true)] ++ round 0 0 0 ++
      [.wave 0 .loadActive, .wave 0 .loadPosted, .wave 0 .loadCompleted] ++ posts 1 ++
      [.wave 0 (.enter 1 fun _ => true)] ++ (round 0 0 0).take 5)
    (fun s => (s.waves 0).pc = .poll ∧ (s.waves 0).consumer = 1) (by decide +kernel)
  refine ⟨s, hrun, hP.1, hP.2, fun hmem => ?_⟩
  have hlt := (((quiets_agree pairs hrun).2.1 0 hP.1).1 1).mp hmem
  omega

/-- After a `shca_quiet_single` that consumed a CQE the counts differ, and the next `shca_quiet`
waits for that CQE again. -/
theorem quiets_disagree :
    (∃ s : State 1, (machine pairs 1).Run Alone s ∧ (s.waves 0).pc = .idle ∧
      s.singles 0 = .idle ∧ s.qp.cqConsumer = 0 ∧ s.qp.quietActive = 0 ∧
      s.qp.quietCompleted = 1) ∧
    (∃ s : State 1, (machine pairs 1).Run Alone s ∧ (s.waves 0).pc = .poll ∧
      (s.waves 0).consumer = 0 ∧ s.qp.taken = [0] ∧ s.qp.completed = s.qp.quietPosted ∧
      s.qp.ready pairs 0 = false) := by
  constructor
  · obtain ⟨s, hrun, hP⟩ := run_of_replay (machine pairs 1) Alone
      (posts 0 ++ [.complete] ++ ([.call, .loadCompleted, .loadPosted, .poll, .counter, .table,
        .invalidate, .sink, .store, .loadCompleted, .loadPosted].map (.single 0)))
      (fun s => (s.waves 0).pc = .idle ∧ s.singles 0 = .idle ∧ s.qp.cqConsumer = 0 ∧
        s.qp.quietActive = 0 ∧ s.qp.quietCompleted = 1) (by decide +kernel)
    exact ⟨s, hrun, hP⟩
  · obtain ⟨s, hrun, hP⟩ := run_of_replay (machine pairs 1) Alone
      (posts 0 ++ [.complete] ++ ([.call, .loadCompleted, .loadPosted, .poll, .counter, .table,
        .invalidate, .sink, .store, .loadCompleted, .loadPosted].map (.single 0)) ++ posts 0 ++
        [.complete, .wave 0 (.enter 1 fun _ => true)] ++ (round 0 0 0).take 5)
      (fun s => (s.waves 0).pc = .poll ∧ (s.waves 0).consumer = 0 ∧ s.qp.taken = [0] ∧
        s.qp.completed = s.qp.quietPosted ∧ s.qp.ready pairs 0 = false) (by decide +kernel)
    exact ⟨s, hrun, hP⟩

end Sequences

end GdaShcaSendRing
