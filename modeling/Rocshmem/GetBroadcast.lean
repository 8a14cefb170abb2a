import Rocshmem.ChunkedMessages
import Rocshmem.StagedPrograms

/-! The broadcasts in which the members read the message from the root, in worlds of four or
more PEs: the get form of GDA and of IPC, `internal_broadcastmem_wg_das` with its leaders and
its proxies, and `MPITransport::team_broadcast`. Every stage of copies ends with a barrier of
the team; no stage comes before the first reads of the root's source. -/
namespace GetBroadcast

open ChunkedMessages GuardedMachines StagedPrograms

inductive Form where
  | gdaGet
  | gdaDas
  | ipcGet
  | roGet
  deriving DecidableEq, Repr

/-- A call, and what the GDA forms know of the machine: the IPC islands by their first PE, the
QPs per PE and the workgroups of the grid. -/
structure Call where
  form : Form
  peStart : ℕ
  stride : ℕ
  peSize : ℕ
  rootRank : ℕ
  nbytes : ℕ
  ipcShmSize : ℕ
  ipcStride : ℕ
  ipcFirstPe : ℕ → ℕ
  numQpsPerPe : ℕ
  activeWgs : ℕ
  root_lt : rootRank < peSize
  qps_pos : 0 < numQpsPerPe
  wgs_pos : 0 < activeWgs
  contiguous : 1 < ipcShmSize → ipcStride = 1 → ∀ p, ipcFirstPe p = ipcShmSize * (p / ipcShmSize)

namespace Call

variable (c : Call)

def members : List ℕ := (List.range c.peSize).map fun rank => c.peStart + rank * c.stride

def root : ℕ := c.peStart + c.rootRank * c.stride

def isIpcAvailable (p q : ℕ) : Bool := c.ipcShmSize != 0 && c.ipcFirstPe p == c.ipcFirstPe q

def nodeLeader (p : ℕ) : ℕ :=
  (c.members.find? fun peer => peer == p || c.isIpcAvailable p peer).getD p

end Call

def minBytesPerPart : ℕ := 64 * 1024

def hierarchicalMinBytes : ℕ := 256 * 1024

namespace Call

variable (c : Call)

def rails : ℕ :=
  let desired := min (max 1 (c.nbytes ⌈/⌉ minBytesPerPart)) c.numQpsPerPe
  min (max 1 (desired ⌈/⌉ c.activeWgs)) c.numQpsPerPe

def useProxyBcast : Bool :=
  hierarchicalMinBytes ≤ c.nbytes && c.stride == 1 && 1 < c.ipcShmSize && c.ipcStride == 1 &&
  c.peStart % c.ipcShmSize == 0 && c.peSize % c.ipcShmSize == 0 && c.ipcShmSize < c.peSize

def proxies : ℕ := min c.ipcShmSize (c.nbytes ⌈/⌉ minBytesPerPart)

def proxyChunk : ℕ := c.nbytes ⌈/⌉ c.proxies

def localSlot (p : ℕ) : ℕ := p - c.ipcFirstPe p

def rootNodeFirst : ℕ := c.peStart + c.rootRank / c.ipcShmSize * c.ipcShmSize

def onRootNode (p : ℕ) : Bool := c.ipcFirstPe p == c.rootNodeFirst

end Call

inductive Cell where
  | src (b : ℕ)
  | dst (p b : ℕ)
  deriving DecidableEq

namespace Call

variable (c : Call)

def getDas (p b : ℕ) : Option Cell :=
  if p = c.root ∨ c.isIpcAvailable p c.root ∨
      ∃ rail < c.rails, InPart c.nbytes (c.nbytes ⌈/⌉ c.rails) rail b then some (.src b)
  else none

def leaderCopies (k p b : ℕ) : Option Cell :=
  match k with
  | 0 => if p = c.root then some (.src b) else if p = c.nodeLeader p then c.getDas p b else none
  | 1 => if p ≠ c.nodeLeader p ∧ p ≠ c.root then some (.dst (c.nodeLeader p) b) else none
  | _ => none

def proxyCopies (k p b : ℕ) : Option Cell :=
  match k with
  | 0 =>
    if p = c.root then some (.src b)
    else if c.onRootNode p ∧ c.localSlot p < c.proxies ∧
      InPart c.nbytes c.proxyChunk (c.localSlot p) b then some (.src b)
    else none
  | 1 =>
    if ¬ c.onRootNode p ∧ c.localSlot p < c.proxies ∧
      InPart c.nbytes c.proxyChunk (c.localSlot p) b then
      some (.dst (c.rootNodeFirst + c.localSlot p) b)
    else none
  | 2 =>
    (otherPart c.nbytes c.proxyChunk c.proxies (c.localSlot p) b).map fun slot =>
      .dst (c.ipcFirstPe p + slot) b
  | _ => none

def copies (k p b : ℕ) : Option Cell :=
  match c.form with
  | .gdaGet | .ipcGet | .roGet => if k = 0 then some (.src b) else none
  | .gdaDas => if c.useProxyBcast then c.proxyCopies k p b else c.leaderCopies k p b

def stages : ℕ :=
  match c.form with
  | .gdaGet | .ipcGet | .roGet => 1
  | .gdaDas => if c.useProxyBcast then 3 else 2

end Call

def Cell.owner (c : Call) : Cell → ℕ
  | .src _ => c.root
  | .dst p _ => p

def program (c : Call) (V : Type*) : Program ℕ Cell V where
  members := c.members
  owner := Cell.owner c
  cells p := (List.range c.nbytes).map (.dst p)
  stages := c.stages
  code
    | _, .src _ => []
    | k, .dst p b =>
      if p ∈ c.members ∧ b < c.nbytes then
        match c.copies k p b with
        | some d => Instr.copy d
        | none => []
      else []
  barrier _ := true

variable {d : Cell} {slot : ℕ}

section Plans

variable {c : Call} {k p q b : ℕ}

theorem mem_members : p ∈ c.members ↔ ∃ rank < c.peSize, c.peStart + rank * c.stride = p := by
  simp [Call.members]

theorem root_mem (c : Call) : c.root ∈ c.members := mem_members.mpr ⟨_, c.root_lt, rfl⟩

theorem leader_spec (hp : p ∈ c.members) :
    c.nodeLeader p ∈ c.members ∧ (c.nodeLeader p = p ∨ c.isIpcAvailable p (c.nodeLeader p)) := by
  unfold Call.nodeLeader
  cases hfind : c.members.find? fun peer => peer == p || c.isIpcAvailable p peer with
  | none =>
    have hnone := List.find?_eq_none.mp hfind p hp
    simp at hnone
  | some x =>
    have hx := List.find?_some hfind
    simp only [Bool.or_eq_true, beq_iff_eq] at hx
    exact ⟨List.mem_of_find?_eq_some hfind, hx⟩

theorem leader_idem (hp : p ∈ c.members) : c.nodeLeader (c.nodeLeader p) = c.nodeLeader p := by
  rcases (leader_spec hp).2 with heq | hipc
  · rwa [heq]
  · simp only [Call.isIpcAvailable, Bool.and_eq_true, bne_iff_ne, beq_iff_eq] at hipc
    obtain ⟨hshm, hfirst⟩ := hipc
    have hsame : ∀ peer, (peer == c.nodeLeader p || c.isIpcAvailable (c.nodeLeader p) peer) =
        (peer == p || c.isIpcAvailable p peer) := by
      grind [Call.isIpcAvailable]
    obtain ⟨x, hx⟩ : ∃ x, c.members.find? (fun peer => peer == p || c.isIpcAvailable p peer) =
        some x := by
      rw [← Option.isSome_iff_exists, List.find?_isSome]
      exact ⟨p, hp, by simp⟩
    have hlead : c.nodeLeader p = x := by rw [Call.nodeLeader, hx, Option.getD_some]
    rw [Call.nodeLeader, funext hsame, hx, Option.getD_some, hlead]

theorem leader_source (hp : p ∈ c.members) (h : c.leaderCopies k p b = some d) :
    d = .src b ∨ ∃ q ∈ c.members, d = .dst q b ∧ 0 < k ∧ c.leaderCopies k q b = none := by
  match k with
  | 0 =>
    simp only [Call.leaderCopies, Call.getDas] at h
    split at h
    · exact .inl (Option.some.inj h).symm
    · split at h
      · split at h
        · exact .inl (Option.some.inj h).symm
        · cases h
      · cases h
  | 1 =>
    grind [Call.leaderCopies, leader_spec, leader_idem]
  | k + 2 => cases h

section Proxies

variable (hproxy : c.useProxyBcast = true)
include hproxy

theorem proxy_islands : c.stride = 1 ∧ 1 < c.ipcShmSize ∧ c.ipcShmSize ∣ c.peStart ∧
    c.ipcShmSize ∣ c.peSize ∧ hierarchicalMinBytes ≤ c.nbytes ∧
    ∀ p, c.ipcFirstPe p = c.ipcShmSize * (p / c.ipcShmSize) := by
  simp only [Call.useProxyBcast, Bool.and_eq_true, decide_eq_true_eq, beq_iff_eq] at hproxy
  obtain ⟨⟨⟨⟨⟨⟨hbytes, hstride⟩, hshm⟩, hipc⟩, hstart⟩, hsize⟩, -⟩ := hproxy
  exact ⟨hstride, hshm, Nat.dvd_of_mod_eq_zero hstart, Nat.dvd_of_mod_eq_zero hsize, hbytes,
    c.contiguous hshm hipc⟩

theorem proxies_pos : 0 < c.proxies := by
  obtain ⟨-, hshm, -, -, hbytes, -⟩ := proxy_islands hproxy
  have hparts : 0 < c.nbytes ⌈/⌉ minBytesPerPart :=
    chunk_pos (by decide) (lt_of_lt_of_le (by decide) hbytes)
  unfold Call.proxies
  omega

theorem proxyChunk_pos : 0 < c.proxyChunk := by
  obtain ⟨-, -, -, -, hbytes, -⟩ := proxy_islands hproxy
  exact chunk_pos (proxies_pos hproxy) (lt_of_lt_of_le (by decide) hbytes)

theorem localSlot_eq (p : ℕ) : c.localSlot p = p % c.ipcShmSize := by
  obtain ⟨-, -, -, -, -, hfirst⟩ := proxy_islands hproxy
  rw [Call.localSlot, hfirst, Nat.mod_def]

theorem localSlot_island {w : ℕ} (hslot : slot < c.proxies) :
    c.localSlot (c.ipcShmSize * w + slot) = slot := by
  rw [localSlot_eq hproxy, Nat.mul_add_mod, Nat.mod_eq_of_lt]
  exact lt_of_lt_of_le hslot (min_le_left _ _)

theorem island_mem (hp : p ∈ c.members) (hslot : slot < c.proxies) :
    c.ipcShmSize * (p / c.ipcShmSize) + slot ∈ c.members := by
  obtain ⟨hstride, hshm, ⟨a, ha⟩, ⟨n, hn⟩, -⟩ := proxy_islands hproxy
  have hlt : slot < c.ipcShmSize := lt_of_lt_of_le hslot (min_le_left _ _)
  obtain ⟨rank, hrank, rfl⟩ := mem_members.mp hp
  have hnode : rank / c.ipcShmSize < n := Nat.div_lt_of_lt_mul (Nat.lt_of_lt_of_eq hrank hn)
  have hfit : c.ipcShmSize * (rank / c.ipcShmSize) + c.ipcShmSize ≤ c.ipcShmSize * n := by
    rw [← Nat.mul_succ]
    exact Nat.mul_le_mul_left _ hnode
  refine mem_members.mpr ⟨c.ipcShmSize * (rank / c.ipcShmSize) + slot, by omega, ?_⟩
  rw [hstride, mul_one, mul_one, ha, Nat.mul_add_div (by omega), mul_add]
  omega

theorem rootNodeFirst_eq : c.rootNodeFirst = c.ipcShmSize * (c.root / c.ipcShmSize) := by
  obtain ⟨hstride, hshm, ⟨a, ha⟩, -⟩ := proxy_islands hproxy
  rw [Call.rootNodeFirst, Call.root, hstride, mul_one, ha, Nat.mul_add_div (by omega),
    mul_add, mul_comm (c.rootRank / _)]

theorem onRootNode_first (hslot : slot < c.proxies) :
    c.onRootNode (c.rootNodeFirst + slot) = true := by
  obtain ⟨-, hshm, -, -, -, hfirst⟩ := proxy_islands hproxy
  have hlt : slot < c.ipcShmSize := lt_of_lt_of_le hslot (min_le_left _ _)
  rw [Call.onRootNode, beq_iff_eq, hfirst, rootNodeFirst_eq hproxy, Nat.mul_add_div (by omega),
    Nat.div_eq_of_lt hlt, add_zero]

theorem assembled_from (hb : b < c.nbytes) : c.proxyCopies 2 p b =
    if b / c.proxyChunk = c.localSlot p then none
    else some (.dst (c.ipcFirstPe p + b / c.proxyChunk) b) := by
  rw [Call.proxyCopies, Call.proxyChunk, otherPart_eq (proxies_pos hproxy) hb]
  split <;> rfl

theorem proxy_source (hp : p ∈ c.members) (hb : b < c.nbytes)
    (h : c.proxyCopies k p b = some d) :
    d = .src b ∨ ∃ q ∈ c.members, d = .dst q b ∧ 0 < k ∧ c.proxyCopies k q b = none := by
  obtain ⟨-, -, -, -, -, hfirst⟩ := proxy_islands hproxy
  match k with
  | 0 =>
    grind [Call.proxyCopies]
  | 1 =>
    simp only [Call.proxyCopies] at h
    split at h
    next hcond =>
      obtain ⟨-, hslot, -⟩ := hcond
      refine .inr ⟨_, ?_, (Option.some.inj h).symm, one_pos, ?_⟩
      · rw [rootNodeFirst_eq hproxy]
        exact island_mem hproxy (root_mem c) hslot
      · simp [Call.proxyCopies, onRootNode_first hproxy hslot]
    next => cases h
  | 2 =>
    rw [assembled_from hproxy hb] at h
    split at h
    next => cases h
    next hne =>
      have hslot : b / c.proxyChunk < c.proxies := part_lt (proxies_pos hproxy) hb
      refine .inr ⟨_, ?_, (Option.some.inj h).symm, two_pos, ?_⟩
      · rw [hfirst]
        exact island_mem hproxy hp hslot
      · -- the proxy of a part does not copy it
        rw [assembled_from hproxy hb, hfirst, localSlot_island hproxy hslot, if_pos rfl]
  | k + 3 => cases h

end Proxies

theorem copies_get (h : c.form ≠ .gdaDas) :
    c.copies k p b = if k = 0 then some (.src b) else none := by
  unfold Call.copies
  cases hform : c.form with
  | gdaDas => exact absurd hform h
  | gdaGet | ipcGet | roGet => rfl

theorem stages_get (h : c.form ≠ .gdaDas) : c.stages = 1 := by
  unfold Call.stages
  cases hform : c.form with
  | gdaDas => exact absurd hform h
  | gdaGet | ipcGet | roGet => rfl

theorem copies_proxy (h : c.form = .gdaDas) (hproxy : c.useProxyBcast = true) :
    c.copies k p b = c.proxyCopies k p b := by
  simp [Call.copies, h, hproxy]

theorem stages_proxy (h : c.form = .gdaDas) (hproxy : c.useProxyBcast = true) : c.stages = 3 := by
  simp [Call.stages, h, hproxy]

theorem copies_leader (h : c.form = .gdaDas) (hproxy : ¬ c.useProxyBcast = true) :
    c.copies k p b = c.leaderCopies k p b := by
  simp [Call.copies, h, hproxy]

theorem stages_leader (h : c.form = .gdaDas) (hproxy : ¬ c.useProxyBcast = true) :
    c.stages = 2 := by
  simp [Call.stages, h, hproxy]

theorem copies_source (hp : p ∈ c.members) (hb : b < c.nbytes)
    (h : c.copies k p b = some d) :
    d = .src b ∨ ∃ q ∈ c.members, d = .dst q b ∧ 0 < k ∧ c.copies k q b = none := by
  grind [Call.copies, leader_source, proxy_source]

theorem copies_lt (h : c.copies k p b = some d) : k < c.stages := by
  by_contra hk
  obtain ⟨j, rfl⟩ := Nat.exists_eq_add_of_le' (Nat.not_lt.mp hk)
  by_cases hform : c.form = .gdaDas
  · by_cases hproxy : c.useProxyBcast = true
    · rw [copies_proxy hform hproxy, stages_proxy hform hproxy] at h
      cases h
    · rw [copies_leader hform hproxy, stages_leader hform hproxy] at h
      cases h
  · rw [copies_get hform, stages_get hform] at h
    cases h

end Plans

section Values

variable {V : Type*} {c : Call} {k p b : ℕ}

theorem computed_iff {x : Cell} :
    (program c V).Computed x ↔ ∃ p b, x = .dst p b ∧ b < c.nbytes := by
  cases x with
  | src b => simp [Program.Computed, program]
  | dst p b => simp [Program.Computed, program, Cell.owner]

theorem code_some (hp : p ∈ c.members) (hb : b < c.nbytes)
    (h : c.copies k p b = some d) : (program c V).code k (.dst p b) = Instr.copy d := by
  simp [program, hp, hb, h]

theorem code_none (h : c.copies k p b = none) : (program c V).code k (.dst p b) = [] := by
  simp [program, h]

theorem code_ne_nil {x : Cell} (h : (program c V).code k x ≠ []) : ∃ p b d, x = .dst p b ∧
    p ∈ c.members ∧ b < c.nbytes ∧ c.copies k p b = some d := by
  cases x with
  | src b => exact absurd rfl h
  | dst p b =>
    grind [program]

theorem raceFree (c : Call) (V : Type*) : (program c V).RaceFree := by
  apply Program.RaceFree.of_barriers fun _ => rfl
  · intro p x hx
    obtain ⟨b, -, rfl⟩ := List.mem_map.mp hx
    rfl
  · intro k x hne
    obtain ⟨p, b, d, rfl, hp, hb, hcopy⟩ := code_ne_nil hne
    exact ⟨computed_iff.mpr ⟨p, b, rfl, hb⟩, hp, copies_lt hcopy⟩
  · intro k x f d hload hd
    obtain ⟨p, b, d', rfl, hp, hb, hcopy⟩ := code_ne_nil (List.ne_nil_of_mem hload)
    rw [code_some hp hb hcopy] at hload
    obtain rfl := Instr.load_mem_copy hload
    rcases copies_source hp hb hcopy with rfl | ⟨q, hq, rfl, hk, hnone⟩
    · obtain ⟨_, _, hx, -⟩ := computed_iff.mp hd
      cases hx
    · exact ⟨hq, hk, code_none hnone⟩

def Holds (c : Call) (reg mem E : Cell → V) (k p b : ℕ) : Prop :=
  ((program c V).value reg mem E k (.dst p b)).2 = E (.src b)

variable {reg mem E : Cell → V}

theorem holds_src (hp : p ∈ c.members) (hb : b < c.nbytes) (h : c.copies k p b = some (.src b)) :
    Holds c reg mem E (k + 1) p b := by
  have hinput : ¬ (program c V).Computed (.src b) := by simp [computed_iff]
  have hsrc : ((program c V).value reg mem E k (.src b)).2 = E (.src b) :=
    Program.value_input (raceFree c V) hinput k
  rw [Holds, Program.value, code_some hp hb h, Program.runCode_copy (by simp), hsrc]

theorem holds_dst {q : ℕ} (hp : p ∈ c.members) (hb : b < c.nbytes)
    (h : c.copies k p b = some (.dst q b)) (hq : Holds c reg mem E k q b) :
    Holds c reg mem E (k + 1) p b := by
  have hne : Cell.dst q b ≠ .dst p b := by
    grind [Holds, copies_source]
  rw [Holds, Program.value, code_some hp hb h, Program.runCode_copy hne]
  exact hq

theorem holds_keep (h : c.copies k p b = none) (hk : Holds c reg mem E k p b) :
    Holds c reg mem E (k + 1) p b := by
  rw [Holds, Program.value, code_none h]
  exact hk

theorem rails_pos (c : Call) : 0 < c.rails :=
  Nat.lt_min.mpr ⟨lt_of_lt_of_le one_pos (le_max_left _ _), c.qps_pos⟩

theorem getDas_eq (hb : b < c.nbytes) : c.getDas p b = some (.src b) := by
  have hrail : ∃ rail < c.rails, InPart c.nbytes (c.nbytes ⌈/⌉ c.rails) rail b :=
    ⟨_, part_lt (rails_pos c) hb, inPart_div (rails_pos c) hb⟩
  rw [Call.getDas, if_pos (.inr (.inr hrail))]

theorem holds_leaders (hform : c.form = .gdaDas) (hproxy : ¬ c.useProxyBcast = true)
    (hp : p ∈ c.members) (hb : b < c.nbytes) : Holds c reg mem E 2 p b := by
  have hfirst : ∀ q ∈ c.members, q = c.root ∨ q = c.nodeLeader q → Holds c reg mem E 1 q b := by
    intro q hq hlead
    apply holds_src hq hb
    rw [copies_leader hform hproxy, Call.leaderCopies]
    by_cases hroot : q = c.root
    · rw [if_pos hroot]
    · rw [if_neg hroot, if_pos (hlead.resolve_left hroot), getDas_eq hb]
  by_cases hlead : p = c.root ∨ p = c.nodeLeader p
  · apply holds_keep _ (hfirst p hp hlead)
    rw [copies_leader hform hproxy, Call.leaderCopies, if_neg]
    rintro ⟨hnot, hroot⟩
    exact hlead.elim hroot hnot
  · rw [not_or] at hlead
    apply holds_dst hp hb
    · rw [copies_leader hform hproxy, Call.leaderCopies, if_pos ⟨hlead.2, hlead.1⟩]
    · exact hfirst _ (leader_spec hp).1 (.inr (leader_idem hp).symm)

section Proxies

variable (hform : c.form = .gdaDas) (hproxy : c.useProxyBcast = true)
include hform hproxy

theorem holds_staged (hp : p ∈ c.members) (hb : b < c.nbytes) (hroot : c.onRootNode p = true)
    (h : c.localSlot p < c.proxies ∧ b / c.proxyChunk = c.localSlot p) :
    Holds c reg mem E 1 p b := by
  apply holds_src hp hb
  rw [copies_proxy hform hproxy, Call.proxyCopies]
  by_cases heq : p = c.root
  · rw [if_pos heq]
  · rw [if_neg heq, if_pos ⟨hroot, h.1, (inPart_iff (proxyChunk_pos hproxy)).mpr ⟨hb, h.2⟩⟩]

theorem holds_fetched (hp : p ∈ c.members) (hb : b < c.nbytes)
    (h : c.localSlot p < c.proxies ∧ b / c.proxyChunk = c.localSlot p) :
    Holds c reg mem E 2 p b := by
  obtain ⟨hslot, hpart⟩ := h
  by_cases hroot : c.onRootNode p = true
  · apply holds_keep _ (holds_staged hform hproxy hp hb hroot ⟨hslot, hpart⟩)
    simp [copies_proxy hform hproxy, Call.proxyCopies, hroot]
  · have hmem : c.rootNodeFirst + c.localSlot p ∈ c.members := by
      rw [rootNodeFirst_eq hproxy]
      exact island_mem hproxy (root_mem c) hslot
    have hsame : c.localSlot (c.rootNodeFirst + c.localSlot p) = c.localSlot p := by
      rw [rootNodeFirst_eq hproxy, localSlot_island hproxy hslot]
    apply holds_dst hp hb
    · rw [copies_proxy hform hproxy, Call.proxyCopies,
        if_pos ⟨hroot, hslot, (inPart_iff (proxyChunk_pos hproxy)).mpr ⟨hb, hpart⟩⟩]
    · apply holds_staged hform hproxy hmem hb (onRootNode_first hproxy hslot)
      rw [hsame]
      exact ⟨hslot, hpart⟩

theorem holds_assembled (hp : p ∈ c.members) (hb : b < c.nbytes) : Holds c reg mem E 3 p b := by
  obtain ⟨-, -, -, -, -, hfirst⟩ := proxy_islands hproxy
  have hlt : b / c.proxyChunk < c.proxies := part_lt (proxies_pos hproxy) hb
  have hcopies := assembled_from (p := p) hproxy hb
  by_cases hown : b / c.proxyChunk = c.localSlot p
  · grind [copies_proxy, holds_keep, holds_fetched]
  · rw [if_neg hown, hfirst] at hcopies
    grind [localSlot_island, island_mem, copies_proxy, holds_dst, holds_fetched]

end Proxies

theorem holds_end (hp : p ∈ c.members) (hb : b < c.nbytes) : Holds c reg mem E c.stages p b := by
  grind [Call.stages, copies_get, holds_src, holds_leaders, holds_assembled]

end Values

def MessageKept {V : Type*} (c : Call) (s : State ℕ Cell V) : Prop :=
  ∀ p ∈ c.members, s.stage p = c.stages + 1 → ∀ b < c.nbytes, s.mem (.dst p b) = s.entry (.src b)

theorem message_kept {V : Type*} {c : Call} {reg mem : Cell → V} {s : State ℕ Cell V}
    (h : ((program c V).machine reg mem).Run (program c V).EntersFirst s) : MessageKept c s := by
  intro p hp hret b hb
  have hcomputed : (program c V).Computed (.dst p b) := computed_iff.mpr ⟨p, b, rfl, hb⟩
  rw [Program.returned_value (raceFree c V) h hcomputed hret]
  exact holds_end hp hb

def fourPes : Call where
  form := .ipcGet
  peStart := 0
  stride := 1
  peSize := 4
  rootRank := 0
  nbytes := 1
  ipcShmSize := 0
  ipcStride := 1
  ipcFirstPe _ := 0
  numQpsPerPe := 1
  activeWgs := 1
  root_lt := by decide
  qps_pos := Nat.one_pos
  wgs_pos := Nat.one_pos
  contiguous h := absurd h (by decide)

def readAll (p : ℕ) : List (Event ℕ Cell ℕ) := [.enter p, .exec (.dst p 0), .exec (.dst p 0)]

theorem root_first_message_kept : ∃ s, ((program fourPes ℕ).machine (fun _ => 0) fun _ => 0).Run
    (program fourPes ℕ).EntersFirst s ∧ s.stage 3 = 2 ∧ s.mem (.dst 3 0) = 7 ∧
      MessageKept fourPes s := by
  obtain ⟨s, hrun, hs⟩ := ((program fourPes ℕ).machine (fun _ => 0) fun _ => 0).run_of_replay
    (program fourPes ℕ).EntersFirst
    (.prepare (.src 0) 7 :: readAll 0 ++ readAll 1 ++ readAll 2 ++ readAll 3 ++ [.pass 3])
    (fun s => s.stage 3 = 2 ∧ s.mem (.dst 3 0) = 7) (by decide +kernel)
  obtain ⟨hstage, hmem⟩ := hs
  exact ⟨s, hrun, hstage, hmem, message_kept hrun⟩

/-- A member that enters before the root returns with what the source held before. -/
theorem early_member_keeps_old : ∃ s, ((program fourPes ℕ).machine (fun _ => 0) fun _ => 0).Run
    anyStep s ∧ s.stage 1 = 2 ∧ s.mem (.dst 1 0) = 0 ∧ s.entry (.src 0) = 7 ∧
      ¬ MessageKept fourPes s := by
  obtain ⟨s, hrun, hs⟩ := ((program fourPes ℕ).machine (fun _ => 0) fun _ => 0).run_of_replay
    anyStep
    (readAll 1 ++ .prepare (.src 0) 7 :: readAll 0 ++ readAll 2 ++ readAll 3 ++ [.pass 1])
    (fun s => s.stage 1 = 2 ∧ s.mem (.dst 1 0) = 0 ∧ s.entry (.src 0) = 7)
    (by decide +kernel)
  obtain ⟨hstage, hmem, hentry⟩ := hs
  refine ⟨s, hrun, hstage, hmem, hentry, fun hkept => ?_⟩
  have heq := hkept 1 (by decide) hstage 0 (by decide)
  omega

end GetBroadcast
