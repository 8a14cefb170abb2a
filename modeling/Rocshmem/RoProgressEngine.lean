import Rocshmem.GuardedMachines
import Rocshmem.RoQueueElement

/-! The bookkeeping of the reverse-offload progress thread: pending requests, the number of
them for each context, and the quiets that wait for a context to drain. -/
namespace RoProgressEngine

open Function GuardedMachines List RoQueueElement

structure Request where
  id : ℕ
  contextId : ℕ
  status : ℤ
  blocking : Bool
  deriving DecidableEq, Repr

structure Quiet where
  id : ℕ
  contextId : ℕ
  status : ℤ
  before : ℕ
  deriving DecidableEq, Repr

/-- The calls of `notify`. For a quiet, `completed` lists the requests that Testsome had
reported and the loop had gone through by then. -/
inductive Notice where
  | request (r : Request)
  | quiet (q : Quiet) (completed : List ℕ)
  | atomic (status : ℤ)
  deriving DecidableEq, Repr

structure State where
  requests : List Request
  outstanding : ℕ → ℤ
  waitingQuiet : ℕ → List Quiet
  submitted : List Request
  completed : List ℕ
  quiets : List Quiet
  notices : List Notice

def initial : State := ⟨[], fun _ => 0, fun _ => [], [], [], [], []⟩

namespace State

def push (s : State) (contextId : ℕ) (status : ℤ) (blocking : Bool) : State :=
  let r : Request := ⟨s.submitted.length, contextId, status, blocking⟩
  { s with
    requests := s.requests ++ [r]
    submitted := s.submitted ++ [r]
    outstanding := update s.outstanding contextId (s.outstanding contextId + 1) }

def notifyQuiets (s : State) (qs : List Quiet) : State :=
  { s with notices := s.notices ++ qs.map (.quiet · s.completed) }

def quiet (s : State) (contextId : ℕ) (status : ℤ) : State :=
  let q : Quiet := ⟨s.quiets.length, contextId, status, s.submitted.length⟩
  let s := { s with quiets := s.quiets ++ [q] }
  if s.outstanding contextId = 0 then s.notifyQuiets [q]
  else
    { s with
      waitingQuiet := update s.waitingQuiet contextId (s.waitingQuiet contextId ++ [q]) }

def putMem (s : State) (contextId : ℕ) (status : ℤ) (blocking : Bool) : State :=
  s.push contextId status blocking

def getMem (s : State) (contextId : ℕ) (status : ℤ) (blocking : Bool) : State :=
  s.push contextId status blocking

def teamReduction (s : State) (contextId : ℕ) (status : ℤ) (blocking : Bool) : State :=
  s.push contextId status blocking

def teamReduceScatter (s : State) (contextId : ℕ) (status : ℤ) (blocking : Bool) : State :=
  s.push contextId status blocking

def barrier (s : State) (contextId : ℕ) (status : ℤ) (blocking doQuiet : Bool) : State :=
  if doQuiet then (s.push contextId 0 false).quiet contextId status
  else s.push contextId status blocking

def teamBroadcast (s : State) (contextId : ℕ) (status : ℤ) : State :=
  ((s.push contextId 0 false).barrier contextId 0 false false).quiet contextId status

def pushAll (s : State) (contextId peSize : ℕ) : State :=
  (range peSize).foldl (fun s _ => s.push contextId 0 false) s

def alltoall (s : State) (contextId : ℕ) (status : ℤ) (peSize : ℕ) : State :=
  (s.pushAll contextId peSize).quiet contextId status

def fcollect (s : State) (contextId : ℕ) (status : ℤ) (peSize : ℕ) : State :=
  (s.pushAll contextId peSize).quiet contextId status

def amo (s : State) (status : ℤ) : State := { s with notices := s.notices ++ [.atomic status] }

def submit (commSize : ℤ → ℕ) (s : State) : Submission → State
  | .putMem _ _ _ _ _ contextId status blocking _ => s.putMem contextId status blocking
  | .getMem _ _ _ _ _ contextId status blocking => s.getMem contextId status blocking
  | .amoFop _ _ _ _ _ _ status _ _ => s.amo status
  | .amoFcas _ _ _ _ _ _ status _ _ => s.amo status
  | .teamReduceScatter _ _ _ _ contextId _ _ _ status blocking =>
    s.teamReduceScatter contextId status blocking
  | .teamReduction _ _ _ _ contextId _ _ _ status blocking =>
    s.teamReduction contextId status blocking
  | .teamBroadcast _ _ _ _ contextId _ _ _ status => s.teamBroadcast contextId status
  | .alltoall _ _ _ _ contextId comm _ _ status => s.alltoall contextId status (commSize comm)
  | .fcollect _ _ _ _ contextId comm _ _ status => s.fcollect contextId status (commSize comm)
  | .barrier contextId status blocking _ doQuiet => s.barrier contextId status blocking doQuiet
  | .quiet contextId status => s.quiet contextId status

def releaseQuiets (s : State) (contextId : ℕ) : State :=
  if s.outstanding contextId = 0 ∧ s.waitingQuiet contextId ≠ [] then
    { s.notifyQuiets (s.waitingQuiet contextId) with
      waitingQuiet := update s.waitingQuiet contextId [] }
  else s

def retire (s : State) (r : Request) : State :=
  { s with
    completed := s.completed ++ [r.id]
    outstanding := update s.outstanding r.contextId (s.outstanding r.contextId - 1)
    notices := if r.blocking then s.notices ++ [.request r] else s.notices }

def finishIndex (s : State) (index : ℕ) : State :=
  match s.requests[index]? with
  | some r => (s.retire r).releaseQuiets r.contextId
  | none => s

def eraseIndices (s : State) (indices : List ℕ) : State :=
  { s with requests := (indices.insertionSort (· ≥ ·)).foldl eraseIdx s.requests }

def progress (s : State) (indices : List ℕ) : State :=
  (indices.foldl finishIndex s).eraseIndices indices

end State

def windowSize : ℕ := 128

inductive Event where
  | submit (sub : Submission)
  | progress (indices : List ℕ)
  deriving DecidableEq

def Refused : Submission → Prop
  | .alltoall dst src _ _ _ _ _ _ _ | .fcollect dst src _ _ _ _ _ _ _ => dst = src
  | _ => False

instance (sub : Submission) : Decidable (Refused sub) := by
  cases sub <;> dsimp only [Refused] <;> infer_instance

def Enabled (s : State) : Event → Prop
  | .submit sub => ¬ Refused sub
  | .progress indices => indices.Nodup ∧ ∀ i ∈ indices, i < min s.requests.length windowSize

def next (commSize : ℤ → ℕ) (s : State) : Event → State
  | .submit sub => s.submit commSize sub
  | .progress indices => s.progress indices

def machine (commSize : ℤ → ℕ) : Machine State Event where
  initial := initial
  enabled := Enabled
  next := next commSize

instance (commSize : ℤ → ℕ) (s : State) (e : Event) :
    Decidable ((machine commSize).enabled s e) := by
  cases e <;> dsimp only [machine, Enabled] <;> infer_instance

def State.told (s : State) : List Quiet :=
  s.notices.filterMap fun
    | .quiet q _ => some q
    | _ => none

def State.live (s : State) : List Request := s.requests.filter fun r => r.id ∉ s.completed

structure Books (s : State) : Prop where
  listed : s.requests.Sublist s.submitted
  ids : s.submitted.map (·.id) = range s.submitted.length
  gone : ∀ r ∈ s.submitted, r ∈ s.requests ∨ r.id ∈ s.completed
  known : ∀ i ∈ s.completed, i < s.submitted.length
  outstanding : ∀ c, s.outstanding c = s.live.countP (·.contextId = c)
  quiet_ids : s.quiets.map (·.id) = range s.quiets.length
  quiet_before : ∀ q ∈ s.quiets, q.before ≤ s.submitted.length
  waiting_context : ∀ c, ∀ q ∈ s.waitingQuiet c, q.contextId = c
  accounted : ∀ q, s.told.count q + (s.waitingQuiet q.contextId).count q = s.quiets.count q
  drained : ∀ q done, .quiet q done ∈ s.notices → ∀ r ∈ s.submitted,
    r.contextId = q.contextId → r.id < q.before → r.id ∈ done

def Waits (s : State) : Prop := ∀ c, s.waitingQuiet c ≠ [] → s.outstanding c ≠ 0

def Settled (s : State) : Prop := ∀ r ∈ s.requests, r.id ∉ s.completed

theorem initial_books : Books initial := by
  constructor <;> simp [initial, State.live, State.told]

@[simp] theorem told_notifyQuiets (s : State) (qs : List Quiet) :
    (s.notifyQuiets qs).told = s.told ++ qs := by
  simp [State.notifyQuiets, State.told, filterMap_append, filterMap_map]

theorem mem_told {s : State} {q : Quiet} : q ∈ s.told ↔ ∃ done, .quiet q done ∈ s.notices := by
  grind [State.told]

section Books

variable {s : State}

variable {r : Request}

section

variable (h : Books s)
include h

theorem Books.id_lt (hr : r ∈ s.submitted) : r.id < s.submitted.length := by
  have hmem : r.id ∈ s.submitted.map (·.id) := mem_map_of_mem hr
  simpa [h.ids] using hmem

theorem Books.id_inj {r' : Request} (hr : r ∈ s.submitted) (hr' : r' ∈ s.submitted)
    (hid : r.id = r'.id) : r = r' := by
  have hnd : (s.submitted.map (·.id)).Nodup := h.ids ▸ nodup_range
  exact inj_on_of_nodup_map hnd hr hr' hid

theorem Books.nodup : s.requests.Nodup := by
  have hnd : (s.submitted.map (·.id)).Nodup := h.ids ▸ nodup_range
  exact h.listed.nodup hnd.of_map

theorem Books.told_quiet {q : Quiet} (hq : q ∈ s.told) : q ∈ s.quiets := by
  have hpos := count_pos_iff.mpr hq
  have hsum := h.accounted q
  exact count_pos_iff.mp (by omega)

theorem Books.all_completed {c : ℕ} (hzero : s.outstanding c = 0) :
    ∀ r ∈ s.submitted, r.contextId = c → r.id ∈ s.completed := by
  intro r hr hc
  by_contra hnot
  have hlist := (h.gone r hr).resolve_right hnot
  have hcount := h.outstanding c
  rw [hzero] at hcount
  have hnone : s.live.countP (·.contextId = c) = 0 := by omega
  rw [countP_eq_zero] at hnone
  exact hnone r (mem_filter.mpr ⟨hlist, by simpa using hnot⟩) (by simpa using hc)

theorem Books.push (contextId : ℕ) (status : ℤ) (blocking : Bool) :
    Books (s.push contextId status blocking) := by
  have hnew : s.submitted.length ∉ s.completed := fun hm => absurd (h.known _ hm) (lt_irrefl _)
  refine ⟨?_, ?_, ?_, ?_, ?_, h.quiet_ids, ?_, h.waiting_context, h.accounted, ?_⟩
  · exact h.listed.append (List.Sublist.refl _)
  · simp [State.push, h.ids, range_succ]
  · intro r hr
    rcases mem_append.mp hr with hr | hr
    · exact (h.gone r hr).imp_left (mem_append_left _)
    · exact .inl (mem_append_right _ hr)
  · intro i hi
    have hlt := h.known i hi
    simp only [State.push, length_append, length_singleton]
    omega
  · intro c
    have hc := h.outstanding c
    have hlive : (s.push contextId status blocking).live =
        s.live ++ [⟨s.submitted.length, contextId, status, blocking⟩] := by
      simp only [State.push, State.live, filter_append]
      congr 1
      simp [hnew]
    rw [hlive, countP_append]
    by_cases hcc : c = contextId
    · subst hcc
      simp [State.push, hc]
    · simp [State.push, hcc, hc, Ne.symm hcc]
  · intro q hq
    have hle := h.quiet_before q hq
    simp only [State.push, length_append, length_singleton]
    omega
  · intro q done hn r hr hc hlt
    rcases mem_append.mp hr with hr | hr
    · exact h.drained q done hn r hr hc hlt
    · -- the new request is not among those before the quiet
      obtain rfl := mem_singleton.mp hr
      have hle := h.quiet_before q (h.told_quiet (mem_told.mpr ⟨done, hn⟩))
      exact absurd (hlt.trans_le hle) (lt_irrefl _)

theorem Books.releaseQuiets (c : ℕ) : Books (s.releaseQuiets c) := by
  unfold State.releaseQuiets
  split
  next hrel =>
    obtain ⟨hzero, -⟩ := hrel
    refine { h with waiting_context := ?_, accounted := ?_, drained := ?_ }
    · grind [Books]
    · intro q
      have hsum := h.accounted q
      have htold : ({ s.notifyQuiets (s.waitingQuiet c) with
          waitingQuiet := update s.waitingQuiet c [] } : State).told =
          s.told ++ s.waitingQuiet c := told_notifyQuiets s _
      rw [htold, count_append]
      by_cases hc : q.contextId = c
      · subst hc
        simpa [State.notifyQuiets] using hsum
      · have hnone : (s.waitingQuiet c).count q = 0 :=
          count_eq_zero.mpr fun hq => hc (h.waiting_context c q hq)
        simpa [State.notifyQuiets, hc, hnone] using hsum
    · grind [State.notifyQuiets, Books, Books.all_completed]
  next => exact h

end

theorem Waits.releaseQuiets {c : ℕ}
    (h : ∀ c' ≠ c, s.waitingQuiet c' ≠ [] → s.outstanding c' ≠ 0) : Waits (s.releaseQuiets c) := by
  unfold State.releaseQuiets
  split
  next =>
    intro c' hw
    by_cases hc : c' = c
    · subst hc
      simp at hw
    · exact h c' hc (by simpa [hc] using hw)
  next hrel =>
    intro c' hw hzero
    by_cases hc : c' = c
    · subst hc
      exact hrel ⟨hzero, hw⟩
    · exact h c' hc hw hzero

def State.await (s : State) (q : Quiet) : State :=
  { s with
    quiets := s.quiets ++ [q]
    waitingQuiet := update s.waitingQuiet q.contextId (s.waitingQuiet q.contextId ++ [q]) }

theorem quiet_eq (hw : Waits s) (contextId : ℕ) (status : ℤ) : s.quiet contextId status =
      (s.await ⟨s.quiets.length, contextId, status,
        s.submitted.length⟩).releaseQuiets contextId := by
  by_cases hzero : s.outstanding contextId = 0
  · have hnone : s.waitingQuiet contextId = [] := by
      by_contra hne
      exact hw contextId hne hzero
    have hsame : update s.waitingQuiet contextId [] = s.waitingQuiet := by
      rw [← hnone]
      exact update_eq_self contextId s.waitingQuiet
    simp [State.quiet, State.await, State.releaseQuiets, State.notifyQuiets, hzero, hnone, hsame]
  · simp [State.quiet, State.await, State.releaseQuiets, hzero]

theorem Books.await (h : Books s) (contextId : ℕ) (status : ℤ) :
    Books (s.await ⟨s.quiets.length, contextId, status, s.submitted.length⟩) := by
  refine ⟨h.listed, h.ids, h.gone, h.known, h.outstanding, ?_, ?_, ?_, ?_, h.drained⟩
  · simp [State.await, h.quiet_ids, range_succ]
  · grind [Books, State.await]
  · intro c q hq
    by_cases hc : c = contextId
    · subst hc
      simp only [State.await, update_self] at hq
      rcases mem_append.mp hq with hq | hq
      · exact h.waiting_context c q hq
      · rw [mem_singleton.mp hq]
    · exact h.waiting_context c q (by simpa [State.await, hc] using hq)
  · intro q
    have hsum := h.accounted q
    change s.told.count q + _ = (s.quiets ++ _).count q
    rw [count_append]
    by_cases hc : q.contextId = contextId
    · subst hc
      simp only [State.await, update_self, count_append]
      omega
    · have hne : (⟨s.quiets.length, contextId, status, s.submitted.length⟩ : Quiet) ≠ q := by
        rintro rfl
        exact hc rfl
      simpa [State.await, hc, count_singleton, hne] using hsum

theorem Books.quiet (h : Books s) (hw : Waits s) (contextId : ℕ) (status : ℤ) :
    Books (s.quiet contextId status) := by
  rw [quiet_eq hw]
  exact (h.await contextId status).releaseQuiets contextId

theorem Waits.quiet (hw : Waits s) (contextId : ℕ) (status : ℤ) :
    Waits (s.quiet contextId status) := by
  rw [quiet_eq hw]
  apply Waits.releaseQuiets
  intro c hc hne
  exact hw c (by simpa [State.await, hc] using hne)

theorem Waits.push (hw : Waits s) (h : Books s) (contextId : ℕ) (status : ℤ) (blocking : Bool) :
    Waits (s.push contextId status blocking) := by
  intro c hne
  have hnonneg := h.outstanding c
  by_cases hc : c = contextId
  · subst hc
    simp only [State.push, update_self]
    omega
  · simpa [State.push, hc] using hw c hne

theorem live_retire (h : Books s) (hr : r ∈ s.requests) :
    (s.retire r).live = s.live.erase r := by
  have hnd : s.live.Nodup := h.nodup.filter _
  rw [hnd.erase_eq_filter r]
  simp only [State.live, State.retire, filter_filter]
  apply filter_congr
  intro x hx
  have hid : x.id = r.id ↔ x = r :=
    ⟨h.id_inj (h.listed.subset hx) (h.listed.subset hr), fun heq => heq ▸ rfl⟩
  by_cases hxr : x = r
  · simp [hxr]
  · simp [hid, hxr]

theorem Books.retire (h : Books s) (hr : r ∈ s.live) : Books (s.retire r) := by
  have hlist : r ∈ s.requests := (mem_filter.mp hr).1
  have hnotice : ∀ q done, .quiet q done ∈ (s.retire r).notices → .quiet q done ∈ s.notices := by
    intro q done hn
    simp only [State.retire] at hn
    split at hn
    · simpa using hn
    · exact hn
  have htold : (s.retire r).told = s.told := by
    simp only [State.retire, State.told]
    split <;> simp
  refine ⟨h.listed, h.ids, ?_, ?_, ?_, h.quiet_ids, h.quiet_before, h.waiting_context, ?_, ?_⟩
  · intro r' hr'
    exact (h.gone r' hr').imp_right (mem_append_left _)
  · intro i hi
    rcases mem_append.mp hi with hi | hi
    · exact h.known i hi
    · rw [mem_singleton.mp hi]
      exact h.id_lt (h.listed.subset hlist)
  · intro c
    have hc := h.outstanding c
    rw [live_retire h hlist, countP_erase]
    by_cases hcc : c = r.contextId
    · subst hcc
      have hpos : 0 < s.live.countP (·.contextId = r.contextId) :=
        countP_pos_iff.mpr ⟨r, hr, by simp⟩
      simp only [State.retire, update_self, hc, hr, decide_true, and_self, if_true]
      omega
    · simp [State.retire, hcc, hc, Ne.symm hcc]
  · intro q
    rw [htold]
    exact h.accounted q
  · exact fun q done hn => h.drained q done (hnotice q done hn)

theorem finishIndex_eq {i : ℕ} (hi : s.requests[i]? = some r) :
    s.finishIndex i = (s.retire r).releaseQuiets r.contextId := by
  simp [State.finishIndex, hi]

@[simp] theorem releaseQuiets_requests (c : ℕ) : (s.releaseQuiets c).requests = s.requests := by
  unfold State.releaseQuiets
  split <;> rfl

@[simp] theorem releaseQuiets_completed (c : ℕ) : (s.releaseQuiets c).completed = s.completed := by
  unfold State.releaseQuiets
  split <;> rfl

structure Finished (s : State) (indices : List ℕ) (s' : State) : Prop where
  books : Books s'
  waits : Waits s'
  requests : s'.requests = s.requests
  completed : ∀ n, n ∈ s'.completed ↔
    n ∈ s.completed ∨ ∃ i ∈ indices, ∃ r, s.requests[i]? = some r ∧ r.id = n

theorem finish_loop (h : Books s) (hw : Waits s) {indices : List ℕ} (hnd : indices.Nodup)
    (hlive : ∀ i ∈ indices, ∃ r ∈ s.live, s.requests[i]? = some r) :
    Finished s indices (indices.foldl State.finishIndex s) := by
  induction indices generalizing s with
  | nil => exact ⟨h, hw, rfl, by simp⟩
  | cons i indices ih =>
    obtain ⟨r, hr, hi⟩ := hlive i mem_cons_self
    obtain ⟨hnot, hnd⟩ := nodup_cons.mp hnd
    have hlist : r ∈ s.requests := (mem_filter.mp hr).1
    have hone : s.finishIndex i = (s.retire r).releaseQuiets r.contextId := finishIndex_eq hi
    have hreq : (s.finishIndex i).requests = s.requests := by simp [hone, State.retire]
    have hcomp : (s.finishIndex i).completed = s.completed ++ [r.id] := by simp [hone, State.retire]
    have hbooks : Books (s.finishIndex i) := hone ▸ (h.retire hr).releaseQuiets r.contextId
    have hwaits : Waits (s.finishIndex i) := by
      rw [hone]
      apply Waits.releaseQuiets
      intro c hc hne
      simpa [State.retire, hc] using hw c hne
    -- the other indices name other requests, which are still live
    have hrest : ∀ j ∈ indices, ∃ r' ∈ (s.finishIndex i).live,
        (s.finishIndex i).requests[j]? = some r' := by
      intro j hj
      obtain ⟨r', hr', hj'⟩ := hlive j (mem_cons_of_mem i hj)
      refine ⟨r', ?_, by rw [hreq, hj']⟩
      obtain ⟨hlist', hdone⟩ := mem_filter.mp hr'
      have hne : r'.id ≠ r.id := by
        intro hid
        obtain rfl := h.id_inj (h.listed.subset hlist') (h.listed.subset hlist) hid
        have hlt : i < s.requests.length := (List.getElem?_eq_some_iff.mp hi).1
        obtain rfl := (getElem?_inj hlt h.nodup).mp (hi.trans hj'.symm)
        exact hnot hj
      rw [State.live, hreq, hcomp]
      exact mem_filter.mpr ⟨hlist', by simpa [hne] using hdone⟩
    obtain ⟨hb, hwt, hr', hc'⟩ := ih hbooks hwaits hnd hrest
    refine ⟨hb, hwt, hr'.trans hreq, fun n => ?_⟩
    rw [foldl_cons, hc', hcomp, hreq]
    simp [hi, or_assoc, eq_comm]

end Books

section Erase

variable {α : Type*} [DecidableEq α]

theorem eraseIdx_eq_filter {l : List α} (hnd : l.Nodup) (i : ℕ) :
    l.eraseIdx i = l.filter fun x => l[i]? ≠ some x := by
  by_cases hi : i < l.length
  · rw [← hnd.erase_getElem i hi, hnd.erase_eq_filter]
    apply filter_congr
    intro x _
    rw [Bool.eq_iff_iff, bne_iff_ne, decide_eq_true_iff, getElem?_eq_getElem hi]
    exact ne_comm.trans (Option.some_injective _).ne_iff.symm
  · have hle := Nat.le_of_not_lt hi
    simp [eraseIdx_of_length_le hle, getElem?_eq_none hle]

theorem foldl_eraseIdx_eq_filter {is : List ℕ} {l : List α} (hnd : l.Nodup)
    (hdesc : is.Pairwise (· > ·)) :
    is.foldl eraseIdx l = l.filter fun x => ∀ i ∈ is, l[i]? ≠ some x := by
  induction is generalizing l with
  | nil => simp
  | cons i is ih =>
    obtain ⟨hbelow, hdesc⟩ := pairwise_cons.mp hdesc
    rw [foldl_cons, ih (hnd.sublist (eraseIdx_sublist l i)) hdesc]
    -- the indices that are left are below the one erased and keep their elements
    have hsame : ∀ j ∈ is, (l.eraseIdx i)[j]? = l[j]? :=
      fun j hj => getElem?_eraseIdx_of_lt (hbelow j hj)
    rw [eraseIdx_eq_filter hnd, filter_filter]
    apply filter_congr
    intro x _
    rw [← eraseIdx_eq_filter hnd]
    have hiff : (∀ j ∈ is, (l.eraseIdx i)[j]? ≠ some x) ↔ ∀ j ∈ is, l[j]? ≠ some x :=
      forall₂_congr fun j hj => by rw [hsame j hj]
    simp [hiff, Bool.and_comm]

end Erase

structure Invariant (s : State) : Prop where
  books : Books s
  waits : Waits s
  settled : Settled s

theorem initial_invariant : Invariant initial :=
  ⟨initial_books, by simp [Waits, initial], by simp [Settled, initial]⟩

section Step

variable {s : State}

theorem Invariant.push (h : Invariant s) (contextId : ℕ) (status : ℤ) (blocking : Bool) :
    Invariant (s.push contextId status blocking) := by
  refine ⟨h.books.push _ _ _, h.waits.push h.books _ _ _, ?_⟩
  intro r hr
  rcases mem_append.mp hr with hr | hr
  · exact h.settled r hr
  · obtain rfl := mem_singleton.mp hr
    exact fun hm => absurd (h.books.known _ hm) (lt_irrefl _)

@[simp] theorem quiet_requests (contextId : ℕ) (status : ℤ) :
    (s.quiet contextId status).requests = s.requests := by
  simp only [State.quiet]
  split <;> rfl

@[simp] theorem quiet_completed (contextId : ℕ) (status : ℤ) :
    (s.quiet contextId status).completed = s.completed := by
  simp only [State.quiet]
  split <;> rfl

theorem Invariant.quiet (h : Invariant s) (contextId : ℕ) (status : ℤ) :
    Invariant (s.quiet contextId status) :=
  ⟨h.books.quiet h.waits _ _, h.waits.quiet _ _, by simpa [Settled] using h.settled⟩

theorem Invariant.pushAll (h : Invariant s) (contextId peSize : ℕ) :
    Invariant (s.pushAll contextId peSize) := by
  induction peSize with
  | zero => exact h
  | succ n ih =>
    rw [State.pushAll, range_succ, foldl_append]
    exact ih.push contextId 0 false

theorem Invariant.barrier (h : Invariant s) (contextId : ℕ) (status : ℤ) (blocking doQuiet : Bool) :
    Invariant (s.barrier contextId status blocking doQuiet) := by
  unfold State.barrier
  split
  · exact (h.push contextId 0 false).quiet contextId status
  · exact h.push contextId status blocking

theorem Invariant.amo (h : Invariant s) (status : ℤ) : Invariant (s.amo status) := by
  have htold : (s.amo status).told = s.told := by simp [State.amo, State.told]
  refine ⟨{ h.books with accounted := ?_, drained := ?_ }, h.waits, h.settled⟩
  · intro q
    rw [htold]
    exact h.books.accounted q
  · intro q done hn
    exact h.books.drained q done (by simpa [State.amo] using hn)

theorem Invariant.submit (h : Invariant s) (commSize : ℤ → ℕ) (sub : Submission) :
    Invariant (s.submit commSize sub) := by
  cases sub with
  | putMem | getMem | teamReduceScatter | teamReduction => exact h.push _ _ _
  | amoFop | amoFcas => exact h.amo _
  | teamBroadcast => exact ((h.push _ 0 false).barrier _ 0 false false).quiet _ _
  | alltoall | fcollect => exact (h.pushAll _ _).quiet _ _
  | barrier => exact h.barrier _ _ _ _
  | quiet => exact h.quiet _ _

variable {indices : List ℕ}

theorem erase_leaves_live {s' : State} (hs : Settled s) (hnd : indices.Nodup)
    (h : Finished s indices s') : s'.eraseIndices indices = { s' with requests := s'.live } := by
  have hsorted : (indices.insertionSort (· ≥ ·)).Pairwise (· > ·) := by
    have hge := pairwise_insertionSort (· ≥ ·) indices
    have hne := (perm_insertionSort (· ≥ ·) indices).nodup_iff.mpr hnd
    exact (hge.and hne).imp fun hab => lt_of_le_of_ne hab.1 hab.2.symm
  rw [State.eraseIndices, foldl_eraseIdx_eq_filter h.books.nodup hsorted, State.live]
  congr 1
  apply filter_congr
  intro x hx
  rw [decide_eq_decide, h.completed]
  have hx' : x ∈ s.requests := h.requests ▸ hx
  constructor
  · rintro hkept (hdone | ⟨i, hi, r, hget, hid⟩)
    · exact hs x hx' hdone
    · have hr : r ∈ s'.requests := h.requests ▸ mem_of_getElem? hget
      obtain rfl := h.books.id_inj (h.books.listed.subset hr) (h.books.listed.subset hx) hid
      exact hkept i ((mem_insertionSort _).mpr hi) (h.requests ▸ hget)
  · intro hnot i hi hget
    exact hnot (.inr ⟨i, (mem_insertionSort _).mp hi, x, h.requests ▸ hget, rfl⟩)

theorem Invariant.progress (h : Invariant s) (he : Enabled s (.progress indices)) :
    Invariant (s.progress indices) := by
  obtain ⟨hnd, hlt⟩ := he
  have hlive : ∀ i ∈ indices, ∃ r ∈ s.live, s.requests[i]? = some r := by
    intro i hi
    have hi' : i < s.requests.length := (hlt i hi).trans_le (min_le_left _ _)
    refine ⟨s.requests[i], mem_filter.mpr ⟨getElem_mem hi', ?_⟩, getElem?_eq_getElem hi'⟩
    simpa using h.settled _ (getElem_mem hi')
  have hfin := finish_loop h.books h.waits hnd hlive
  rw [State.progress, erase_leaves_live h.settled hnd hfin]
  have hb := hfin.books
  generalize indices.foldl State.finishIndex s = s' at hb hfin
  have hsame : ({ s' with requests := s'.live } : State).live = s'.live := by
    simp [State.live]
  refine ⟨{ hb with listed := filter_sublist.trans hb.listed, gone := ?_, outstanding := ?_ },
    hfin.waits, ?_⟩
  · grind [Books, State.live]
  · intro c
    rw [hsame]
    exact hb.outstanding c
  · intro r hr
    simpa using (mem_filter.mp hr).2

end Step

theorem run_invariant {commSize : ℤ → ℕ} {s : State}
    (h : (machine commSize).Run anyStep s) : Invariant s := by
  apply h.induct initial_invariant
  intro s e hs he _
  cases e with
  | submit sub => exact hs.submit commSize sub
  | progress indices => exact hs.progress he

/-- The counters count the pending requests; a request is pending until Testsome reports it
and not after; a quiet is notified once, when nothing of its context is left, and every
request of its context submitted before it has completed by then. -/
structure EngineKept (s : State) : Prop where
  outstanding : ∀ c, s.outstanding c = s.requests.countP (·.contextId = c)
  removed : ∀ r ∈ s.submitted, r ∈ s.requests ↔ r.id ∉ s.completed
  once : ∀ q ∈ s.quiets, s.told.count q ≤ 1
  told : ∀ q ∈ s.quiets, q ∈ s.told ↔ ¬ (q ∈ s.waitingQuiet q.contextId)
  waiting : ∀ q ∈ s.quiets, q ∈ s.waitingQuiet q.contextId → ∃ r ∈ s.requests,
    r.contextId = q.contextId
  drained : ∀ q done, .quiet q done ∈ s.notices → q ∈ s.quiets ∧ ∀ r ∈ s.submitted,
    r.contextId = q.contextId → r.id < q.before → r.id ∈ done

def quietAfterPuts : List Event :=
  [.submit (.putMem 0 8 4 1 0 0 100 true false), .submit (.getMem 0 8 4 1 0 1 101 true),
    .submit (.putMem 0 8 4 1 0 0 102 false false), .submit (.quiet 0 103), .progress [2],
    .progress [0, 1]]

end RoProgressEngine
