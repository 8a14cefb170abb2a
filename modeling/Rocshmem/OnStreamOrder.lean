import Rocshmem.GuardedMachines
import Rocshmem.StreamEvents

/-! The order of the on-stream collectives of a team. Each call holds the lock of the launcher
while it makes its stream wait for the last record of the team's event, enqueues its kernels and
records the event again. The kernels are those of RCCL, of one workgroup, or of several
workgroups with a duplicate team each. -/
namespace OnStreamOrder

open Function GuardedMachines StreamEvents

structure Env where
  roBackend : Bool
  maxNumWgsOnStream : ℕ
  maxNumTeams : ℕ
  maxNumContexts : ℕ

def kMultiBlockThreshold : ℕ := 256 * 1024

def kBytesPerWg : ℕ := 32 * 1024

def Env.computeNumWgs (env : Env) (messageBytes : ℕ) : ℕ :=
  let chunkCount := messageBytes / kBytesPerWg + if messageBytes % kBytesPerWg ≠ 0 then 1 else 0
  let configuredWgs := max 1 env.maxNumWgsOnStream
  let maxTeams := if env.maxNumTeams > 1 then env.maxNumTeams - 1 else 1
  max 1 (min (min chunkCount configuredWgs) (min maxTeams env.maxNumContexts))

def Env.useSingleWg (env : Env) (size : ℕ) : Bool :=
  env.roBackend || size < kMultiBlockThreshold || env.computeNumWgs size ≤ 1

inductive Kind where
  | barrier
  | collective (bytes : ℕ)
  deriving DecidableEq

variable {N : ℕ}

structure Call (N : ℕ) where
  team : ℕ
  stream : Fin N
  kind : Kind
  deriving DecidableEq

structure ParallelResources where
  completion : Option ℕ
  wgTeams : ℕ
  wgTeamCreationFailed : Bool

def ParallelResources.fresh : ParallelResources := ⟨none, 0, false⟩

/-- Where a thread is in a call: before the lock, with it, after the constructor of the order,
in `enqueue_multi_wg`, after that failed, after the launch, and after the destructor. -/
inductive Pc (N : ℕ) where
  | idle
  | entering (c : Call N)
  | locked (c : Call N)
  | ordered (c : Call N)
  | multi (c : Call N)
  | fallback (c : Call N)
  | launched (c : Call N) (n : ℕ)
  | recorded
  deriving DecidableEq

structure State (N : ℕ) where
  lock : Option (ℕ × ℕ)
  pc : ℕ → Pc N
  resources : ℕ → Option ParallelResources
  device : Device (Fin N) ℕ
  count : ℕ → ℕ
  log : List (ℕ × ℕ)

def initial (N : ℕ) : State N := ⟨none, fun _ => .idle, fun _ => none, .initial, fun _ => 0, []⟩

inductive Event (N : ℕ) where
  | call (t : ℕ) (c : Call N)
  | lock (t : ℕ)
  | construct (t : ℕ)
  | rccl (t : ℕ)
  | single (t : ℕ)
  | multi (t : ℕ)
  | ensure (t : ℕ) (created : Bool)
  | fallback (t : ℕ)
  | destruct (t : ℕ)
  | unlock (t : ℕ)
  | release (team : ℕ)
  | releaseAll
  | other (σ : Fin N)
  | advance (σ : Fin N)

namespace State

variable (s : State N) (t : ℕ)

def setPc (pc : Pc N) : State N := { s with pc := update s.pc t pc }

def parallelResourcesFor (team : ℕ) : ParallelResources := (s.resources team).getD .fresh

def setResources (team : ℕ) (r : ParallelResources) : State N :=
  { s with resources := update s.resources team (some r) }

def launch (c : Call N) : State N :=
  { s.setPc t (.launched c (s.count c.team)) with
    device := s.device.enqueue c.stream (.work c.team (s.count c.team))
    count := update s.count c.team (s.count c.team + 1)
    log := s.log ++ [(c.team, s.count c.team)] }

def Drained : Prop := ∀ σ, ∀ x ∈ s.device.queue σ, x = .other

instance : Decidable s.Drained := inferInstanceAs (Decidable (∀ _, _))

def construct (c : Call N) : State N :=
  let r := s.parallelResourcesFor c.team
  let s' := (s.setResources c.team r).setPc t (.ordered c)
  match r.completion with
  | some n => { s' with device := s.device.enqueue c.stream (.wait c.team n) }
  | none => s'

def destruct (c : Call N) (n : ℕ) : State N :=
  { (s.setResources c.team { s.parallelResourcesFor c.team with completion := some n }).setPc t
      .recorded with
    device := s.device.enqueue c.stream (.record c.team n) }

end State

open State (parallelResourcesFor construct setResources setPc)

def ParallelResources.ensureWgTeams (r : ParallelResources) (requiredNumWgs : ℕ)
    (created : Bool) : ParallelResources :=
  if r.wgTeamCreationFailed then r
  else if r.wgTeams < requiredNumWgs then
    if created then { r with wgTeams := requiredNumWgs }
    else { r with wgTeams := 0, wgTeamCreationFailed := true }
  else r

def ParallelResources.Blocked (r : ParallelResources) (requiredNumWgs : ℕ)
    (recorded : ℕ → Bool) : Prop :=
  r.wgTeamCreationFailed = false ∧ r.wgTeams < requiredNumWgs ∧ r.wgTeams ≠ 0 ∧
    r.completion.any (fun n => !recorded n) = true

instance (r : ParallelResources) (requiredNumWgs : ℕ) (recorded : ℕ → Bool) :
    Decidable (r.Blocked requiredNumWgs recorded) := inferInstanceAs (Decidable (_ ∧ _))

section Steps

variable (env : Env) (s : State N) (t : ℕ)

def ensure (c : Call N) (bytes : ℕ) (created : Bool) : Option (State N) :=
  let numWgs := env.computeNumWgs bytes
  let r := s.parallelResourcesFor c.team
  if r.Blocked numWgs (s.device.recorded c.team) then none
  else
    let r' := r.ensureWgTeams numWgs created
    let s' := { s.setResources c.team r' with lock := some (t, 1) }
    if r'.wgTeams = 0 then some (s'.setPc t (.fallback c)) else some (s'.launch t c)

def step : Event N → Option (State N)
  | .call t c => if s.pc t = .idle then some (s.setPc t (.entering c)) else none
  | .lock t =>
    match s.pc t, s.lock with
    | .entering c, none => some { s.setPc t (.locked c) with lock := some (t, 1) }
    | _, _ => none
  | .construct t =>
    match s.pc t with
    | .locked c => some (s.construct t c)
    | _ => none
  | .rccl t =>
    match s.pc t with
    | .ordered c => if c.kind ≠ .barrier then some (s.launch t c) else none
    | _ => none
  | .single t =>
    match s.pc t with
    | .ordered c =>
      match c.kind with
      | .barrier => some (s.launch t c)
      | .collective bytes => if env.useSingleWg bytes then some (s.launch t c) else none
    | _ => none
  | .multi t =>
    match s.pc t with
    | .ordered c =>
      match c.kind with
      | .barrier => none
      | .collective bytes =>
        if env.useSingleWg bytes then none
        else some { s.setPc t (.multi c) with lock := some (t, 2) }
    | _ => none
  | .ensure t created =>
    match s.pc t with
    | .multi c =>
      match c.kind with
      | .barrier => none
      | .collective bytes => ensure env s t c bytes created
    | _ => none
  | .fallback t =>
    match s.pc t with
    | .fallback c => some (s.launch t c)
    | _ => none
  | .destruct t =>
    match s.pc t with
    | .launched c n => some (s.destruct t c n)
    | _ => none
  | .unlock t =>
    match s.pc t with
    | .recorded => some { s.setPc t .idle with lock := none }
    | _ => none
  | .release team =>
    match s.lock, s.resources team with
    | none, none => some s
    | none, some _ =>
      -- `hipDeviceSynchronize`
      if s.Drained then some { s with resources := update s.resources team none } else none
    | some _, _ => none
  | .releaseAll =>
    if s.lock = none ∧ s.Drained then some { s with resources := fun _ => none } else none
  | .other σ => some { s with device := s.device.enqueue σ .other }
  | .advance σ => (s.device.advance σ).map fun d => { s with device := d }

end Steps

def machine (env : Env) (N : ℕ) : Machine (State N) (Event N) := .ofStep (initial N) (step env)

instance (env : Env) (s : State N) (e : Event N) : Decidable ((machine env N).enabled s e) :=
  inferInstanceAs (Decidable ((step env s e).isSome = true))

@[grind =] def Pc.Holds : Pc N → Prop
  | .idle | .entering _ => False
  | .locked _ | .ordered _ | .multi _ | .fallback _ | .launched _ _ | .recorded => True

def RecordOk (s : State N) (k : ℕ) : Prop :=
  match (s.parallelResourcesFor k).completion with
  | some n => n + 1 = s.count k
  | none => ∀ i < s.count k, s.device.finished k i = true

/-- A call between its constructor and its launch, or between launch and destructor, has all
works before it covered in its stream. -/
structure Inv (s : State N) : Prop where
  ordered : Ordered s.device
  holder : ∀ {t}, (s.pc t).Holds → s.lock.map Prod.fst = some t
  recordOk : ∀ {k}, (∀ t c n, s.pc t = .launched c n → c.team ≠ k) → RecordOk s k
  covered : ∀ {t c}, s.pc t = .ordered c ∨ s.pc t = .multi c ∨ s.pc t = .fallback c →
    Covered s.device c.stream c.team (s.count c.team)
  launched : ∀ {t c n}, s.pc t = .launched c n →
    s.count c.team = n + 1 ∧ Covered s.device c.stream c.team (n + 1)
  pending : ∀ {k i}, i < s.count k → s.device.finished k i = false →
    ∃ σ, .work k i ∈ s.device.queue σ
  numbered : s.log.Pairwise fun w w' => w.1 = w'.1 → w.2 < w'.2
  counted : ∀ w ∈ s.log, w.2 < s.count w.1

section Invariant

variable {env : Env} {s s' : State N} {t : ℕ} {c : Call N} {pc : Pc N}

theorem inv_initial : Inv (initial N) where
  ordered := ordered_initial
  holder h := h.elim
  recordOk _ _ hi := absurd hi (Nat.not_lt_zero _)
  covered h := by rcases h with h | h | h <;> cases h
  launched := nofun
  pending hi := absurd hi (Nat.not_lt_zero _)
  numbered := List.Pairwise.nil
  counted := nofun

theorem Inv.others (h : Inv s) (ht : (s.pc t).Holds) {t' : ℕ} (hne : t' ≠ t) :
    ¬(s.pc t').Holds := fun ht' => by
  have heq := (h.holder ht').symm.trans (h.holder ht)
  exact hne (Option.some.inj heq)

theorem Inv.of_holder (hpc : s'.pc = update s.pc t pc)
    (hothers : ∀ {t'}, t' ≠ t → ¬(s.pc t').Holds) (hordered : Ordered s'.device)
    (hholder : pc.Holds → s'.lock.map Prod.fst = some t)
    (hrecord : ∀ {k}, (∀ c n, pc = .launched c n → c.team ≠ k) → RecordOk s' k)
    (hcovered : ∀ {c}, pc = .ordered c ∨ pc = .multi c ∨ pc = .fallback c →
      Covered s'.device c.stream c.team (s'.count c.team))
    (hlaunched : ∀ {c n}, pc = .launched c n →
      s'.count c.team = n + 1 ∧ Covered s'.device c.stream c.team (n + 1))
    (hpending : ∀ {k i}, i < s'.count k → s'.device.finished k i = false →
      ∃ σ, .work k i ∈ s'.device.queue σ)
    (hnumbered : s'.log.Pairwise fun w w' => w.1 = w'.1 → w.2 < w'.2)
    (hcounted : ∀ w ∈ s'.log, w.2 < s'.count w.1) : Inv s' := by
  have hself : s'.pc t = pc := by rw [hpc, update_self]
  have hholds : ∀ {t'}, (s'.pc t').Holds → t' = t := fun {t'} ht' => by
    by_contra hne
    rw [hpc, update_of_ne hne] at ht'
    exact hothers hne ht'
  refine ⟨hordered, fun ht' => ?_, fun hk => hrecord fun c n hcn => ?_, fun hc => ?_,
    fun hc => ?_, hpending, hnumbered, hcounted⟩
  all_goals grind

section

variable (h : Inv s)
include h

theorem Inv.setDevice {d : Device (Fin N) ℕ} (hordered : Ordered d)
    (hfinished : ∀ {k i}, s.device.finished k i = true → d.finished k i = true)
    (hcovered : ∀ {σ k n}, Covered s.device σ k n → Covered d σ k n)
    (hqueue : ∀ {σ k i}, .work k i ∈ s.device.queue σ → d.finished k i = true ∨
      .work k i ∈ d.queue σ)
    : Inv { s with device := d } := by
  refine ⟨hordered, h.holder, fun hk => ?_, fun hc => hcovered (h.covered hc), fun hc =>
    (h.launched hc).imp_right hcovered, fun {k i} hi hf => ?_, h.numbered, h.counted⟩
  · have hold := h.recordOk hk
    grind [RecordOk, parallelResourcesFor]
  grind [Inv]

theorem Inv.launch (ht : (s.pc t).Holds) (hlock : s.lock.map Prod.fst = some t)
    (hnot : ∀ c n, s.pc t ≠ .launched c n) (hc : Covered s.device c.stream c.team (s.count c.team))
    : Inv (s.launch t c) := by
  have hcount : ∀ k, (s.launch t c).count k =
    if k = c.team then s.count c.team + 1 else s.count k :=
    fun k => update_apply _ _ _ _
  have hnone : ∀ t' c' n, s.pc t' ≠ .launched c' n := fun t' c' n hl => by
    grind [Inv]
  refine Inv.of_holder rfl (h.others ht) (h.ordered.enqueue hc) (fun _ => hlock)
    (fun {k} hk => ?_) (by rintro _ (hp | hp | hp) <;> cases hp) (fun {c' n} hp => ?_)
    (fun {k i} hi hf => ?_) ?_ fun w hw => ?_
  · have hne : k ≠ c.team := fun heq => hk _ _ rfl heq.symm
    have hold := h.recordOk (k := k) fun t' c' n hl => absurd hl (hnone t' c' n)
    rw [RecordOk, hcount, if_neg hne]
    exact hold
  · cases hp
    rw [hcount, if_pos rfl]
    exact ⟨rfl, hc.work⟩
  · by_cases hnew : k = c.team ∧ i = s.count c.team
    · grind [State.launch, queue_enqueue]
    · have hi' : i < s.count k := by
        rw [hcount] at hi
        grind
      obtain ⟨σ, hσ⟩ := h.pending hi' hf
      exact ⟨σ, subset_enqueue s.device c.stream σ _ hσ⟩
  all_goals grind [State.launch, Inv]

theorem Inv.free (hlock : s.lock = none) (t : ℕ) : ¬(s.pc t).Holds := fun ht => by
  have heq := h.holder ht
  rw [hlock] at heq
  cases heq

theorem Inv.recordOk_of_free (hfree : ∀ t, ¬(s.pc t).Holds) (k : ℕ) : RecordOk s k :=
  h.recordOk fun t _ _ hl => absurd (hl ▸ trivial) (hfree t)

theorem Inv.inside (pc : Pc N) (ht : (s.pc t).Holds) (hnot : ∀ c n, s.pc t ≠ .launched c n)
    (hpc : s'.pc = update s.pc t pc) (hdevice : s'.device = s.device)
    (hcount : s'.count = s.count) (hlog : s'.log = s.log)
    (hcompletion : ∀ k, (s'.parallelResourcesFor k).completion =
      (s.parallelResourcesFor k).completion)
    (hlock : pc.Holds → s'.lock.map Prod.fst = some t)
    (hnew : ∀ {c}, pc = .ordered c ∨ pc = .multi c ∨ pc = .fallback c →
      Covered s.device c.stream c.team (s.count c.team))
    (hlaunched : ∀ c n, pc ≠ .launched c n) : Inv s' := by
  refine Inv.of_holder hpc (h.others ht) (hdevice ▸ h.ordered) hlock (fun {k} _ => ?_)
    (fun hc => ?_) (fun hc => absurd hc (hlaunched _ _)) ?_ (hlog ▸ h.numbered) ?_
  · have hold := h.recordOk (k := k) fun t' c n hl => ?_
    all_goals grind [RecordOk, Inv]
  all_goals grind [Inv]

theorem construct_inv (hpc : s.pc t = .locked c) : Inv (s.construct t c) := by
  have ht : (s.pc t).Holds := hpc ▸ trivial
  have hnone : ∀ t' c' n, s.pc t' ≠ .launched c' n := fun t' c' n hl => by
    grind [Inv]
  have hrecord := h.recordOk (k := c.team) fun t' c' n hl => absurd hl (hnone t' c' n)
  have hresources : ∀ k, ((s.construct t c).parallelResourcesFor k).completion =
      (s.parallelResourcesFor k).completion := fun k => by
    simp only [construct, parallelResourcesFor, setResources, setPc]
    split <;> simp only [update_apply] <;> split <;> simp_all
  rw [RecordOk] at hrecord
  cases hcompletion : (s.parallelResourcesFor c.team).completion with
  | none =>
    simp only [hcompletion] at hrecord
    have heq : s.construct t c = (s.setResources c.team
        (s.parallelResourcesFor c.team)).setPc t (.ordered c) := by
      simp only [construct, hcompletion]
    refine h.inside (.ordered c) ht (fun _ _ => hpc ▸ nofun) (heq ▸ rfl)
      (heq ▸ rfl) (heq ▸ rfl) (heq ▸ rfl) hresources ?_ ?_ nofun
    all_goals grind [setPc, setResources, Inv, covered_of_finished]
  | some n =>
    simp only [hcompletion] at hrecord
    have heq : s.construct t c = { (s.setResources c.team
        (s.parallelResourcesFor c.team)).setPc t (.ordered c) with
          device := s.device.enqueue c.stream (.wait c.team n) } := by
      simp only [construct, hcompletion]
    have hwait : Inv { s with device := s.device.enqueue c.stream (.wait c.team n) } :=
      h.setDevice (h.ordered.enqueue trivial) id (fun hc => hc.enqueue _ _)
        fun hw => Or.inr (subset_enqueue _ _ _ _ hw)
    refine hwait.inside (t := t) (.ordered c) ht (fun _ _ => hpc ▸ nofun) (heq ▸ rfl)
      (heq ▸ rfl) (heq ▸ rfl) (heq ▸ rfl) hresources ?_ ?_ nofun
    all_goals grind [setPc, setResources, Inv, covered_wait]

theorem destruct_inv {n : ℕ} (hpc : s.pc t = .launched c n) : Inv (s.destruct t c n) := by
  have ht : (s.pc t).Holds := hpc ▸ trivial
  obtain ⟨hcount, hcovered⟩ := h.launched hpc
  have hmono : ∀ {σ k i}, .work k i ∈ s.device.queue σ →
      .work k i ∈ (s.destruct t c n).device.queue σ := fun hw => subset_enqueue _ _ _ _ hw
  refine Inv.of_holder rfl (h.others ht) (h.ordered.enqueue hcovered) (fun _ => h.holder ht)
    (fun {k} _ => ?_) (by rintro _ (hp | hp | hp) <;> cases hp) nofun
    (fun hi hf => (h.pending hi hf).imp fun _ => hmono) h.numbered h.counted
  by_cases hk : k = c.team
  · subst hk
    have hnew : ((s.destruct t c n).parallelResourcesFor c.team).completion = some n := by
      simp [State.destruct, parallelResourcesFor, setResources, setPc]
    rw [RecordOk, hnew]
    exact hcount.symm
  · have hold := h.recordOk (k := k) fun t' c' m hl => ?_
    · have hsame : (s.destruct t c n).parallelResourcesFor k = s.parallelResourcesFor k := by
        simp [State.destruct, parallelResourcesFor, setResources, setPc, hk]
      rw [RecordOk, hsame]
      exact hold
    grind [Inv]

theorem Inv.drained (hd : s.Drained) {k i : ℕ} (hi : i < s.count k) :
    s.device.finished k i = true := by
  grind [State.Drained, Inv]

theorem Inv.erase (hlock : s.lock = none) (hd : s.Drained)
    {resources : ℕ → Option ParallelResources}
    (hr : ∀ k, resources k = none ∨ resources k = s.resources k) :
    Inv { s with resources := resources } := by
  refine { h with recordOk := fun {k} _ => ?_ }
  rcases hr k with hk | hk
  · simp only [RecordOk, parallelResourcesFor, hk]
    exact fun i hi => h.drained hd hi
  · have hold := h.recordOk_of_free (h.free hlock) k
    simp only [RecordOk, parallelResourcesFor, hk] at hold ⊢
    exact hold

theorem call_inv (hpc : s.pc t = .idle) : Inv (s.setPc t (.entering c)) := by
  have hother : ∀ {t'}, t' ≠ t → (s.setPc t (.entering c)).pc t' = s.pc t' := fun hne =>
    update_of_ne hne _ _
  have hself : (s.setPc t (.entering c)).pc t = .entering c := update_self _ _ _
  have hold : ∀ {t'}, ((s.setPc t (.entering c)).pc t').Holds →
      (s.setPc t (.entering c)).pc t' = s.pc t' := fun {t'} ht' =>
    hother fun heq => by
      rw [heq, hself] at ht'
      exact ht'
  refine ⟨h.ordered, fun ht' => h.holder (hold ht' ▸ ht'), fun hk => h.recordOk fun t' c' n hl =>
    hk t' c' n ?_, fun {t' c'} hc => ?_, fun {t' c' n} hc => ?_, h.pending, h.numbered, h.counted⟩
  all_goals grind [setPc, Inv]

theorem lock_inv (hlock : s.lock = none) : Inv { s.setPc t (.locked c) with lock := some (t, 1) } :=
  Inv.of_holder rfl (fun _ => h.free hlock _) h.ordered (fun _ => rfl)
    (fun _ => h.recordOk_of_free (h.free hlock) _) (by rintro _ (hp | hp | hp) <;> cases hp) nofun
    h.pending h.numbered h.counted

theorem multi_inv (hpc : s.pc t = .ordered c) :
    Inv { s.setPc t (.multi c) with lock := some (t, 2) } := by
  refine h.inside (.multi c) (hpc ▸ trivial) (fun _ _ => hpc ▸ nofun) rfl rfl rfl rfl
    (fun _ => rfl) (fun _ => rfl) ?_ nofun
  rintro c' (hc | hc | hc) <;> cases hc
  exact h.covered (Or.inl hpc)

theorem unlock_inv (hpc : s.pc t = .recorded) : Inv { s.setPc t .idle with lock := none } :=
  h.inside (.idle) (hpc ▸ trivial) (fun _ _ => hpc ▸ nofun) rfl rfl rfl rfl
    (fun _ => rfl) (fun hf => hf.elim) (by rintro _ (hc | hc | hc) <;> cases hc) nofun

end

theorem ensureWgTeams_completion (r : ParallelResources) (m : ℕ) (created : Bool) :
    (r.ensureWgTeams m created).completion = r.completion := by
  rw [ParallelResources.ensureWgTeams]
  split
  · rfl
  · split
    · split <;> rfl
    · rfl

theorem ensure_inv {bytes : ℕ} {created : Bool} (h : Inv s) (hpc : s.pc t = .multi c)
    (hstep : ensure env s t c bytes created = some s') : Inv s' := by
  simp only [ensure] at hstep
  split at hstep
  · cases hstep
  generalize hr : (s.parallelResourcesFor c.team).ensureWgTeams (env.computeNumWgs bytes)
    created = r at hstep
  have hcompletion : ∀ k, ((s.setResources c.team r).parallelResourcesFor k).completion =
      (s.parallelResourcesFor k).completion := fun k => by
    by_cases hk : k = c.team
    · rw [hk, ← ensureWgTeams_completion (s.parallelResourcesFor c.team), hr]
      simp [parallelResourcesFor, setResources]
    · simp [parallelResourcesFor, setResources, hk]
  have hcovered := h.covered (Or.inr (Or.inl hpc))
  -- the duplicate teams change with the thread still in `enqueue_multi_wg`
  have hmid : Inv { s.setResources c.team r with lock := some (t, 1) } := by
    refine h.inside (.multi c) (hpc ▸ trivial) (fun _ _ => hpc ▸ nofun) ?_ rfl rfl rfl
      hcompletion (fun _ => rfl) ?_ nofun
    all_goals grind [setResources]
  split at hstep
  · cases hstep
    refine hmid.inside (t := t) (.fallback c) (hpc ▸ trivial) (fun _ _ => hpc ▸ nofun) rfl
      rfl rfl rfl (fun _ => rfl) (fun _ => rfl) ?_ nofun
    rintro c' (hc | hc | hc) <;> cases hc
    exact hcovered
  grind [setResources, Inv.launch]

theorem step_inv {e : Event N} (h : Inv s) (hstep : step env s e = some s') : Inv s' := by
  cases e with
  | call t c =>
    grind [step, call_inv]
  | lock t =>
    grind [step, lock_inv]
  | construct t =>
    grind [step, construct_inv]
  | rccl | single | fallback =>
    grind [step, Inv, Inv.launch]
  | multi t =>
    grind [step, multi_inv]
  | ensure t created =>
    grind [step, ensure_inv]
  | destruct t =>
    grind [step, destruct_inv]
  | unlock t =>
    grind [step, unlock_inv]
  | release | releaseAll =>
    grind [step, Inv.erase]
  | other σ =>
    cases hstep
    exact h.setDevice (h.ordered.enqueue trivial) id (fun hc => hc.enqueue _ _)
      fun hw => Or.inr (subset_enqueue _ _ _ _ hw)
  | advance σ =>
    simp only [step, Option.map_eq_some_iff] at hstep
    grind [Inv, Inv.setDevice, Ordered.advance, Ordered.finished_advance, Ordered.mem_advance,
      Ordered.covered_advance]

end Invariant

/-- In every run, of two submissions on the same team the work of the later one starts only when
that of the earlier one has finished, whichever streams they are on and whichever kernels they
launch. -/
theorem on_stream_ordered (env : Env) {s : State N}
    (hs : (machine env N).Run anyStep s) :
    s.log.Pairwise fun w w' => w.1 = w'.1 →
      s.device.started w'.1 w'.2 = true → s.device.finished w.1 w.2 = true := by
  have h : Inv s := hs.ofStep_induct inv_initial fun _ _ _ h _ hstep => step_inv h hstep
  refine h.numbered.imp fun {w w'} hlt hteam hstarted => ?_
  rw [hteam]
  exact h.ordered.started hstarted _ (hlt hteam)

/-- A collective of several workgroups that falls back to one, and a barrier from another thread
on another stream. -/
theorem on_stream_ordered_fallback :
    ∃ s : State 2, (machine ⟨false, 8, 8, 8⟩ 2).Run anyStep s ∧ s.log = [(3, 0), (3, 1)] ∧
      s.device.started 3 1 = true ∧ s.device.finished 3 0 = true := by
  obtain ⟨s, hrun, hP⟩ := run_of_replay (machine ⟨false, 8, 8, 8⟩ 2) anyStep
    [.call 0 ⟨3, 0, .collective 1048576⟩, .call 1 ⟨3, 1, .barrier⟩, .lock 0, .construct 0,
      .multi 0, .ensure 0 false, .fallback 0, .destruct 0, .unlock 0, .lock 1, .construct 1,
      .single 1, .destruct 1, .advance 0, .advance 0, .advance 0, .advance 1, .advance 1]
    (fun s => s.log = [(3, 0), (3, 1)] ∧ s.device.started 3 1) (by decide +kernel)
  have hpair := on_stream_ordered _ hrun
  rw [hP.1, List.pairwise_pair] at hpair
  exact ⟨s, hrun, hP.1, hP.2, hpair rfl hP.2⟩

end OnStreamOrder
