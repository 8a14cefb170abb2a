import Rocshmem.BootstrapGather

/-! The barriers of the bootstrap network. In the ring a rank sends in a step only after it has
received in the step before, so a receive in step `d` comes after the first send of the rank
`d + 1` positions before. -/
namespace BootstrapBarriers

open BootstrapCalls BootstrapGather BootstrapSockets FifoPrograms GuardedMachines List

deriving instance DecidableEq for Call

def barrier (nRanks : ℕ) : Call := .allGather 4 nRanks

def IsBarrier (c : Call) : Prop :=
  (∃ ranks, c = .groupBarrier ranks) ∨ ∃ nRanks, c = barrier nRanks

def barriers (S : Schedule) (c : Call) (r : ℕ) : List ℕ :=
  (S.order r).filter fun k => S.call k = c

def Entered (S : Schedule) (s : State) (r k : ℕ) : Prop :=
  Returned S s r k ∨ ∃ a ∈ (S.call k).ops k r, a ∈ (s.rank r).done

def InStep (k : ℕ) : Op → Op → Prop
  | .send _ l _, .recv _ l' _ => l.call = k → l'.call = k → l.step ≤ l'.step
  | _, _ => True

section Order

variable {S : Schedule} {k r : ℕ}

theorem ringSteps_inStep {id rank size n pos left steps : ℕ} {sl rl : ℕ → Link} {offset : ℕ → ℤ} :
    (ringSteps id rank size n pos left sl rl offset steps).Pairwise (InStep id) := by
  refine pairwise_flatMap.mpr ⟨fun i _ => ?_, ?_⟩
  · exact pairwise_pair.mpr fun _ _ => Nat.le_refl i
  · refine pairwise_lt_range.imp fun {i j} hij a ha b hb => ?_
    rcases mem_pair.mp ha with rfl | rfl
    · rcases mem_pair.mp hb with rfl | rfl
      · trivial
      · exact fun _ _ => hij.le
    · trivial

theorem inStep_of_ne {i j : ℕ} {a b : Op} (ha : Sized i a) (hb : Sized j b)
    (h : i ≠ k ∨ j ≠ k) : InStep k a b := by
  cases a with
  | send c l x =>
    cases b with
    | recv c' l' y =>
      intro hl hl'
      rcases h with h | h
      · exact absurd (ha.1.symm.trans hl) h
      · exact absurd (hb.1.symm.trans hl') h
    | send | move => trivial
  | recv | move => trivial

theorem program_inStep (hg : (S.call k).IsGather) (hf : Fits (S.call k)) (r : ℕ) :
    (S.program r).Pairwise (InStep k) := by
  refine pairwise_flatMap.mpr ⟨fun i hi => ?_, ?_⟩
  · by_cases hik : i = k
    · subst hik
      obtain ⟨sl, rl, -, -, hops⟩ := gather_ops i (S.valid i) hg hf (S.member hi)
      rw [hops]
      exact ringSteps_inStep
    · refine pairwise_of_forall_mem_list fun a ha b hb => ?_
      exact inStep_of_ne (Call.ops_sized _ a ha) (Call.ops_sized _ b hb) (.inl hik)
  · refine (S.once r).imp fun {i j} hij a ha b hb => ?_
    refine inStep_of_ne (Call.ops_sized _ a ha) (Call.ops_sized _ b hb) ?_
    by_cases hik : i = k
    · exact .inr fun hjk => hij (hik.trans hjk.symm)
    · exact .inl hik

end Order

section Ring

variable {S : Schedule} {s : State} {k p i : ℕ}

def Sent (s : State) (p k i : ℕ) : Prop :=
  ∃ c l x, .send c l x ∈ (s.rank p).done ∧ l.call = k ∧ l.step = i

def Got (s : State) (p k i : ℕ) : Prop :=
  ∃ c l x, .recv c l x ∈ (s.rank p).done ∧ l.call = k ∧ l.step = i

def rankBefore (c : Call) (p d : ℕ) : ℕ :=
  c.ranks.getD ((c.ranks.idxOf p + c.ranks.length - d) % c.ranks.length) 0

theorem rankBefore_mem {c : Call} (hp : p ∈ c.ranks) (d : ℕ) : rankBefore c p d ∈ c.ranks :=
  getD_mem (Nat.mod_lt _ (length_pos_of_mem hp))

theorem rankBefore_one {c : Call} (hv : c.Valid) (hp : p ∈ c.ranks) {d : ℕ}
    (hd : d < c.ranks.length) : rankBefore c (rankBefore c p 1) d = rankBefore c p (d + 1) := by
  have hpos := idxOf_lt_length_of_mem hp
  have hmod := Nat.mod_lt (c.ranks.idxOf p + c.ranks.length - 1) (length_pos_of_mem hp)
  have hidx := (getD_eq_iff hv.nodup hmod (getD_mem hmod)).mp rfl
  rw [rankBefore, rankBefore, ← hidx, sub_mod_sub hpos hd, Nat.sub_sub, rankBefore]

theorem recv_mem_ops (hg : (S.call k).IsGather) (hf : Fits (S.call k)) (hp : p ∈ (S.call k).ranks)
    (hi : i < (S.call k).ranks.length - 1) :
    ∃ c l x, .recv c l x ∈ (S.call k).ops k p ∧ l.call = k ∧ l.step = i := by
  obtain ⟨sl, rl, -, -, heq⟩ := gather_ops k (S.valid k) hg hf hp
  rw [heq]
  exact ⟨rl i, ⟨k, i, _, _⟩, _, mem_flatMap.mpr ⟨i, mem_range.mpr hi,
    mem_cons_of_mem _ mem_cons_self⟩, rfl, rfl⟩

variable (hd : Delivered Link.source Link.target S.program s.fifo)
include hd

theorem ops_of_done {a : Op}
    (ha : a ∈ (s.rank p).done) (hk : ∀ j, Sized j a → j = k) :
    k ∈ S.order p ∧ a ∈ (S.call k).ops k p := by
  obtain ⟨j, hj, ha, -⟩ := S.mem_program (hd.program_of_done ha)
  obtain rfl := hk j (Call.ops_sized _ a ha)
  exact ⟨hj, ha⟩

variable (hg : (S.call k).IsGather) (hf : Fits (S.call k))
include hg hf

theorem sent_of_got (h : Got s p k i) : Sent s (rankBefore (S.call k) p 1) k i := by
  obtain ⟨c, l, x, hdone, hcall, hstep⟩ := h
  obtain ⟨hk, hops⟩ := ops_of_done hd hdone fun j hj => hj.1.symm.trans hcall
  obtain ⟨y, hy⟩ := hd.sent_of_received S.matched hdone
  obtain ⟨sl, rl, -, hrl, heq⟩ := gather_ops k (S.valid k) hg hf (S.member hk)
  have hsource : c.source = rankBefore (S.call k) p 1 := by
    grind [ringSteps, rankBefore]
  exact ⟨c, l, y, hsource ▸ hy, hcall, hstep⟩

theorem got_of_sent (h : Sent s p k (i + 1)) : Got s p k i := by
  obtain ⟨c, l, x, hdone, hcall, hstep⟩ := h
  obtain ⟨hk, hops⟩ := ops_of_done hd hdone fun j hj => hj.1.symm.trans hcall
  obtain ⟨sl, rl, -, -, heq⟩ := gather_ops k (S.valid k) hg hf (S.member hk)
  have hlt : i + 1 < (S.call k).ranks.length - 1 := by
    grind [ringSteps]
  obtain ⟨c', l', y, hrecv, hcall', hstep'⟩ :=
    recv_mem_ops hg hf (S.member hk) (show i < (S.call k).ranks.length - 1 by omega)
  have hprogram : .recv c' l' y ∈ S.program p := mem_flatMap.mpr ⟨k, hk, hrecv⟩
  refine ⟨c', l', y, hd.done_of_before (program_inStep hg hf p) hdone hprogram fun hle => ?_,
    hcall', hstep'⟩
  have hsteps : l.step ≤ l'.step := hle hcall hcall'
  omega

theorem sent_first (hp : p ∈ (S.call k).ranks) {d : ℕ} (hlt : d < (S.call k).ranks.length)
    (h : Got s p k d) :
    Sent s (rankBefore (S.call k) p (d + 1)) k 0 := by
  induction d generalizing p with
  | zero => exact sent_of_got hd hg hf h
  | succ d ih =>
    have hleft := got_of_sent hd hg hf (sent_of_got hd hg hf h)
    have hsent := ih (rankBefore_mem hp 1) (by omega) hleft
    rwa [rankBefore_one (S.valid k) hp hlt] at hsent

end Ring

section Results

variable {S : Schedule} {mem : ℕ → Memory} {s : State} {k p q : ℕ}

theorem done_of_returned (h : Returned S s p k) {a : Op} (ha : a ∈ (S.call k).ops k p) :
    a ∈ (s.rank p).done := by
  obtain ⟨before, after, -, hdone⟩ := h
  refine hdone.subset ?_
  rw [flatMap_append, flatMap_singleton]
  exact mem_append_right _ ha

theorem member_of_returned (h : Returned S s p k) : p ∈ (S.call k).ranks := by
  obtain ⟨before, after, horder, -⟩ := h
  exact S.member (horder ▸ mem_append_right _ mem_cons_self)

section

variable (hd : Delivered Link.source Link.target S.program s.fifo)
include hd

theorem groupBarrier_separates {ranks : List ℕ} (hc : S.call k = .groupBarrier ranks)
    (hret : Returned S s p k) (hq : q ∈ ranks) : Entered S s q k := by
  by_cases hqp : q = p
  · exact .inl (hqp ▸ hret)
  · have hrecv : .recv (.peer q p 0) ⟨k, 0, q, 4⟩ ⟨k, .dummy, 0, 4⟩ ∈ (S.call k).ops k p := by
      rw [hc]
      refine mem_append_right _ (mem_map.mpr ⟨q, ?_, rfl⟩)
      exact mem_filter.mpr ⟨hq, decide_eq_true hqp⟩
    obtain ⟨y, hy⟩ := hd.sent_of_received S.matched (done_of_returned hret hrecv)
    exact .inr ⟨_, (ops_of_done hd hy fun j hj => hj.1.symm).2, hy⟩

theorem gather_separates (hg : (S.call k).IsGather) (hf : Fits (S.call k)) (hret : Returned S s p k)
    (hq : q ∈ (S.call k).ranks) : Entered S s q k := by
  by_cases hqp : q = p
  · exact .inl (hqp ▸ hret)
  · have hp := member_of_returned hret
    have hnd := (S.valid k).nodup
    have hne : (S.call k).ranks.idxOf q ≠ (S.call k).ranks.idxOf p := fun h =>
      hqp (idxOf_inj hq |>.mp h)
    obtain ⟨d, hlt, hidx⟩ := exists_steps (idxOf_lt_length_of_mem hp)
      (idxOf_lt_length_of_mem hq) hne
    have hbefore : rankBefore (S.call k) p (d + 1) = q := by
      rw [rankBefore, hidx]
      exact (getD_eq_iff hnd (idxOf_lt_length_of_mem hq) hq).mpr rfl
    obtain ⟨c, l, x, hrecv, hcall, hstep⟩ := recv_mem_ops hg hf hp hlt
    obtain ⟨c', l', y, hsent, hcall', -⟩ := sent_first hd hg hf hp (by omega)
      ⟨c, l, x, done_of_returned hret hrecv, hcall, hstep⟩
    rw [hbefore] at hsent
    exact .inr ⟨_, (ops_of_done hd hsent fun j hj => hj.1.symm.trans hcall').2, hsent⟩

theorem barrier_separates (hb : IsBarrier (S.call k)) (hret : Returned S s p k)
    (hq : q ∈ (S.call k).ranks) : Entered S s q k := by
  rcases hb with ⟨ranks, hc⟩ | ⟨nRanks, hc⟩
  · rw [hc] at hq
    exact groupBarrier_separates hd hc hret hq
  · refine gather_separates hd ?_ ?_ hret hq <;> rw [hc] <;> trivial

end

theorem barriers_eq {c : Call} (hp : p ∈ c.ranks) (hq : q ∈ c.ranks) :
    barriers S c p = barriers S c q := by
  have hcommon : ∀ {p q}, q ∈ c.ranks → barriers S c p =
      ((S.order p).filter fun k => q ∈ (S.call k).ranks).filter fun k => S.call k = c := by
    intro p q hq
    rw [barriers, filter_filter]
    refine filter_congr fun k _ => ?_
    by_cases hk : S.call k = c
    · rw [hk, decide_eq_true rfl, decide_eq_true hq]
      rfl
    · rw [decide_eq_false hk]
      rfl
  rw [hcommon hq, S.agree, ← hcommon hp]

/-- In any run over the sockets, no rank returns from the `n`-th barrier of a kind before every
participant has entered its `n`-th. -/
theorem barriers_separate (h : (machine S mem).Run anyStep s) {c : Call}
    (hb : IsBarrier c) (hp : p ∈ c.ranks) (hq : q ∈ c.ranks) {n : ℕ}
    (hk : (barriers S c p)[n]? = some k) (hret : Returned S s p k) :
    (barriers S c q)[n]? = some k ∧ Entered S s q k := by
  have hd : Delivered Link.source Link.target S.program s.fifo :=
    Delivered.of_run S.matched (run_fifo h).2
  have hcall : S.call k = c := of_decide_eq_true (mem_filter.mp (mem_of_getElem? hk)).2
  refine ⟨barriers_eq hp hq ▸ hk, barrier_separates hd ?_ hret ?_⟩
  · exact hcall ▸ hb
  · exact hcall ▸ hq

/-- Two ranks in a barrier: both connect and send, and then the first one accepts and receives. -/
theorem barriers_separate_pair : ∃ s,
    (machine (oneCall (.groupBarrier [0, 1]) (by decide : [0, 1].Nodup)) fun _ _ _ _ => 0).Run
      anyStep s ∧
      Returned (oneCall (.groupBarrier [0, 1]) (by decide : [0, 1].Nodup)) s 0 0 ∧
      Entered (oneCall (.groupBarrier [0, 1]) (by decide : [0, 1].Nodup)) s 1 0 := by
  obtain ⟨s, hrun, hP⟩ := run_of_replay
    (machine (oneCall (.groupBarrier [0, 1]) (by decide : [0, 1].Nodup)) fun _ _ _ _ => 0)
    anyStep
    (replicate 4 (.run 0) ++ replicate 4 (.run 1) ++ [.run 0, .accept 0 1] ++
      replicate 3 (.run 0))
    (fun s => (s.rank 0).todo.isEmpty) (by decide +kernel)
  have hret := returned_of_todo_nil hrun (k := 0) (r := 0) (by decide) (isEmpty_iff.mp hP)
  exact ⟨s, hrun, hret, (barriers_separate hrun (n := 0) (c := .groupBarrier [0, 1])
    (.inl ⟨_, rfl⟩) (by decide) (by decide) (by decide) hret).2⟩

end Results

end BootstrapBarriers
