import Rocshmem.ChunkedMessages
import Rocshmem.StagedPrograms

/-! `internal_proxy_allreduce` of GDA, on a team of equal contiguous IPC islands. In every
island the proxies reduce their segments of the sources of all local peers, which they read
over IPC; the first island reduces the results of all islands; the other islands fetch them
and every PE assembles the segments. Each of these four stages ends with `internal_sync_wg`,
none comes before the first. -/
namespace GdaProxyAllreduce

open ChunkedMessages GuardedMachines List StagedPrograms

abbrev Pe := ℕ × ℕ

structure Islands where
  localSize : ℕ
  nodeCount : ℕ
  several_slots : 1 < localSize
  several_nodes : 1 < nodeCount

def Islands.members (t : Islands) : List Pe :=
  (range t.nodeCount).flatMap fun node => (range t.localSize).map fun slot => (node, slot)

theorem Islands.mem_members {t : Islands} {p : Pe} :
    p ∈ t.members ↔ p.1 < t.nodeCount ∧ p.2 < t.localSize := by
  obtain ⟨node, slot⟩ := p
  simp [Islands.members]

export Islands (mem_members)

inductive Cell where
  | src (p : Pe) (e : ℕ)
  | dst (p : Pe) (e : ℕ)
  | wrk (p : Pe) (node e : ℕ)
  deriving DecidableEq

def Cell.owner : Cell → Pe
  | .src p _ | .dst p _ | .wrk p _ _ => p

section FusedReduce

variable {V : Type*} (op : V → V → V) (t : Islands)

def otherSlots (p : Pe) : List ℕ := (range t.localSize).filter (· ≠ p.2)

def fusedIpcReduce (p : Pe) (e : ℕ) : List (Instr Cell V) :=
  .load (fun _ x => x) (.src p e) ::
    (otherSlots t p).map (fun slot => Instr.load (fun r x => op x r) (Cell.src (p.1, slot) e)) ++
    [Instr.store fun r _ => r]

def islandValue (E : Cell → V) (p : Pe) (e : ℕ) : V :=
  (otherSlots t p).foldl (fun r slot => op (E (.src (p.1, slot) e)) r) (E (.src p e))

variable {op t}

theorem runCode_fused {read : Cell → V} {c : Cell} {x : V × V} {p : Pe} {e : ℕ}
    (hc : ∀ q e, c ≠ .src q e) :
    (Program.runCode read c (fusedIpcReduce op t p e) x).2 = islandValue op t read p e := by
  have hload : ∀ (l : List ℕ) (y : V × V),
      (l.map fun slot => Instr.load (fun r x => op x r) (Cell.src (p.1, slot) e)).foldl
        (fun x i => i.apply c read x) y =
      (l.foldl (fun r slot => op (read (.src (p.1, slot) e)) r) y.1, y.2) := by
    intro l
    induction l with
    | nil => exact fun y => rfl
    | cons slot l ih =>
      intro y
      rw [map_cons, foldl_cons, ih, Instr.apply, if_neg (hc _ _).symm]
      rfl
  rw [Program.runCode, fusedIpcReduce, cons_append, foldl_cons, foldl_append, hload,
    Instr.apply, if_neg (hc _ _).symm]
  rfl

theorem load_mem_fused {p : Pe} {e : ℕ} {f : V → V → V} {d : Cell}
    (h : .load f d ∈ fusedIpcReduce op t p e) : ∃ q, d = .src q e := by
  grind [fusedIpcReduce]

end FusedReduce

def minBytesPerProxy : ℕ := 64 * 1024

structure Call extends Islands where
  nelems : ℕ
  sizeofT : ℕ
  large : 256 * 1024 ≤ nelems * sizeofT

namespace Call

variable (c : Call)

def proxies : ℕ := min c.localSize (c.nelems * c.sizeofT ⌈/⌉ minBytesPerProxy)

def proxyChunk : ℕ := c.nelems ⌈/⌉ c.proxies

def InSegment (p : Pe) (e : ℕ) : Prop := p.2 < c.proxies ∧ InPart c.nelems c.proxyChunk p.2 e

instance (p : Pe) (e : ℕ) : Decidable (c.InSegment p e) := inferInstanceAs (Decidable (_ ∧ _))

end Call

variable {V : Type*} (op : V → V → V) (c : Call)

def nodeReduce (p : Pe) (e : ℕ) : List (Instr Cell V) :=
  ((range (c.nodeCount - 1)).map (· + 1)).flatMap fun node =>
    [.load (fun _ x => x) (.dst (node, p.2) e), .store op]

def stageCode (k : ℕ) (p : Pe) (e : ℕ) : List (Instr Cell V) :=
  match k with
  | 0 => if c.InSegment p e then fusedIpcReduce op c.toIslands p e else []
  | 1 => if p.1 = 0 ∧ c.InSegment p e then nodeReduce op c p e else []
  | 2 => if p.1 ≠ 0 ∧ c.InSegment p e then Instr.copy (.dst (0, p.2) e) else []
  | 3 =>
    match otherPart c.nelems c.proxyChunk c.proxies p.2 e with
    | some slot => Instr.copy (.dst (p.1, slot) e)
    | none => []
  | _ => []

def program : Program Pe Cell V where
  members := c.members
  owner := Cell.owner
  cells p := (range c.nelems).map (.dst p)
  stages := 4
  code
    | k, .dst p e => if p ∈ c.members ∧ e < c.nelems then stageCode op c k p e else []
    | _, _ => []
  barrier _ := true

variable {op c} {k e : ℕ} {p : Pe}

section Plan

theorem proxies_pos (c : Call) : 0 < c.proxies := by
  have hslots := c.several_slots
  have hparts : 0 < c.nelems * c.sizeofT ⌈/⌉ minBytesPerProxy :=
    chunk_pos (by decide) (Nat.lt_of_lt_of_le (by decide) c.large)
  unfold Call.proxies
  omega

def Call.slot (c : Call) (e : ℕ) : ℕ := e / c.proxyChunk

theorem slot_lt (he : e < c.nelems) : c.slot e < c.proxies := part_lt (proxies_pos c) he

theorem slot_lt_localSize (he : e < c.nelems) : c.slot e < c.localSize :=
  Nat.lt_of_lt_of_le (slot_lt he) (Nat.min_le_left _ _)

theorem inSegment_iff (he : e < c.nelems) : c.InSegment p e ↔ c.slot e = p.2 := by
  rw [Call.InSegment, Call.proxyChunk, inPart_iff (chunk_pos (proxies_pos c)
    (Nat.zero_lt_of_lt he))]
  constructor
  · exact fun h => h.2.2
  · exact fun h => ⟨h ▸ slot_lt he, he, h⟩

theorem assemble_code (he : e < c.nelems) : stageCode op c 3 p e =
    if c.slot e = p.2 then [] else Instr.copy (.dst (p.1, c.slot e) e) := by
  have hpart : otherPart c.nelems c.proxyChunk c.proxies p.2 e =
      if c.slot e = p.2 then none else some (c.slot e) := otherPart_eq (proxies_pos c) he
  rw [stageCode, hpart]
  by_cases h : c.slot e = p.2
  · simp only [if_pos h]
  · simp only [if_neg h]

theorem first_node_mem (hp : p ∈ c.members) : (0, p.2) ∈ c.members :=
  mem_members.mpr ⟨Nat.zero_lt_of_lt c.several_nodes, (mem_members.mp hp).2⟩

theorem stage_loads (hp : p ∈ c.members) (he : e < c.nelems) {f : V → V → V} {d : Cell}
    (h : .load f d ∈ stageCode op c k p e) : (∃ q, d = .src q e) ∨
      ∃ q ∈ c.members, d = .dst q e ∧ 0 < k ∧ stageCode op c k q e = [] := by
  match k with
  | 0 =>
    rw [stageCode] at h
    split at h
    · exact .inl (load_mem_fused h)
    · cases h
  | 1 =>
    rw [stageCode] at h
    grind [nodeReduce, stageCode, Islands.members]
  | 2 =>
    grind [stageCode, first_node_mem, Instr.load_mem_copy]
  | 3 =>
    grind [Islands.members, slot_lt_localSize, assemble_code, Instr.load_mem_copy]
  | k + 4 => cases h

theorem computed_iff {x : Cell} : (program op c).Computed x ↔ ∃ p e, x = .dst p e ∧
    e < c.nelems := by
  cases x <;> simp [Program.Computed, program, Cell.owner]

theorem code_dst (hp : p ∈ c.members) (he : e < c.nelems) :
    (program op c).code k (.dst p e) = stageCode op c k p e := by
  simp [program, hp, he]

theorem code_ne_nil {x : Cell} (h : (program op c).code k x ≠ []) :
    ∃ p e, x = .dst p e ∧ p ∈ c.members ∧ e < c.nelems := by
  grind [program]

theorem raceFree (op : V → V → V) (c : Call) : (program op c).RaceFree := by
  apply Program.RaceFree.of_barriers fun _ => rfl
  · intro p x hx
    obtain ⟨e, -, rfl⟩ := mem_map.mp hx
    rfl
  · intro k x hne
    obtain ⟨p, e, rfl, hp, he⟩ := code_ne_nil hne
    refine ⟨computed_iff.mpr ⟨p, e, rfl, he⟩, hp, ?_⟩
    rw [code_dst hp he] at hne
    match k with
    | 0 | 1 | 2 | 3 => simp [program]
    | k + 4 => exact absurd rfl hne
  · grind [Program.Computed, program, stage_loads]

end Plan

section Values

variable (op c) in
def allreduceValue (E : Cell → V) (e : ℕ) : V :=
  ((range (c.nodeCount - 1)).map (· + 1)).foldl
    (fun y node => op (islandValue op c.toIslands E (node, c.slot e) e) y)
    (islandValue op c.toIslands E (0, c.slot e) e)

variable {reg mem E : Cell → V}

theorem value_src {q : Pe} : ((program op c).value reg mem E k (.src q e)).2 = E (.src q e) :=
  Program.value_input (raceFree op c) (by simp [computed_iff]) k

theorem value_next (hp : p ∈ c.members) (he : e < c.nelems) :
    (program op c).value reg mem E (k + 1) (.dst p e) =
      Program.runCode (fun d => ((program op c).value reg mem E k d).2) (.dst p e)
        (stageCode op c k p e) ((program op c).value reg mem E k (.dst p e)) := by
  rw [Program.value, code_dst hp he]

theorem value_reduced (hp : p ∈ c.members) (he : e < c.nelems) (hslot : c.slot e = p.2) :
    ((program op c).value reg mem E 1 (.dst p e)).2 = islandValue op c.toIslands E p e := by
  rw [value_next hp he, stageCode, if_pos ((inSegment_iff he).mpr hslot), runCode_fused (by simp)]
  simp only [islandValue, value_src]

theorem runCode_nodes {read : Cell → V} {x : V × V} (hp : p.1 = 0) :
    (Program.runCode read (.dst p e) (nodeReduce op c p e) x).2 =
      ((range (c.nodeCount - 1)).map (· + 1)).foldl
        (fun y node => op (read (.dst (node, p.2) e)) y) x.2 := by
  -- induction over the nodes still to come, none of which is the node of `p`
  have hstep : ∀ (l : List ℕ) (y : V × V), (∀ node ∈ l, node ≠ 0) →
      (Program.runCode read (.dst p e) (l.flatMap fun node =>
        [.load (fun _ x => x) (.dst (node, p.2) e), .store op]) y).2 =
      l.foldl (fun y node => op (read (.dst (node, p.2) e)) y) y.2 := by
    intro l
    induction l with
    | nil => exact fun y _ => rfl
    | cons node l ih =>
      intro y hl
      have hne : Cell.dst (node, p.2) e ≠ .dst p e := by
        intro heq
        exact hl node mem_cons_self ((congrArg Prod.fst (Cell.dst.inj heq).1).trans hp)
      rw [flatMap_cons, foldl_cons, Program.runCode, cons_append, cons_append,
        nil_append, foldl_cons, foldl_cons, Instr.apply, if_neg hne]
      exact ih _ fun node' h => hl node' (mem_cons_of_mem _ h)
  apply hstep
  simp

theorem value_combined (hp : p ∈ c.members) (he : e < c.nelems) (hslot : c.slot e = p.2)
    (hroot : p.1 = 0) :
    ((program op c).value reg mem E 2 (.dst p e)).2 = allreduceValue op c E e := by
  rw [value_next hp he, stageCode, if_pos ⟨hroot, (inSegment_iff he).mpr hslot⟩,
    runCode_nodes hroot, value_reduced hp he hslot, allreduceValue, hslot]
  have hnode : (0, p.2) = p := by rw [← hroot]
  rw [hnode]
  apply foldl_ext
  intro y node hmem
  obtain ⟨node, hlt, rfl⟩ := mem_map.mp hmem
  have hlt := mem_range.mp hlt
  have hq : (node + 1, p.2) ∈ c.members :=
    mem_members.mpr ⟨by show node + 1 < c.nodeCount; omega, (mem_members.mp hp).2⟩
  rw [value_reduced hq he hslot]

theorem value_fetched (hp : p ∈ c.members) (he : e < c.nelems) (hslot : c.slot e = p.2) :
    ((program op c).value reg mem E 3 (.dst p e)).2 = allreduceValue op c E e := by
  rw [value_next hp he, stageCode]
  grind [inSegment_iff, first_node_mem, value_combined, Program.runCode_nil, Program.runCode_copy]

theorem value_assembled (hp : p ∈ c.members) (he : e < c.nelems) :
    ((program op c).value reg mem E 4 (.dst p e)).2 = allreduceValue op c E e := by
  rw [value_next hp he, assemble_code he]
  by_cases hown : c.slot e = p.2
  · rw [if_pos hown, Program.runCode_nil]
    exact value_fetched hp he hown
  · have hne : Cell.dst (p.1, c.slot e) e ≠ .dst p e := by
      intro heq
      exact hown (congrArg Prod.snd (Cell.dst.inj heq).1)
    have hq : (p.1, c.slot e) ∈ c.members :=
      mem_members.mpr ⟨(mem_members.mp hp).1, slot_lt_localSize he⟩
    rw [if_neg hown, Program.runCode_copy hne]
    exact value_fetched hq he rfl

end Values

variable (op c) in
def ResultKept (s : State Pe Cell V) : Prop :=
  ∀ p ∈ c.members, s.stage p = 5 → ∀ e < c.nelems, s.mem (.dst p e) = allreduceValue op c s.entry e

theorem allreduce_kept {reg mem : Cell → V} {s : State Pe Cell V}
    (h : ((program op c).machine reg mem).Run (program op c).EntersFirst s) :
    ResultKept op c s := by
  intro p hp hret e he
  have hcomputed : (program op c).Computed (.dst p e) := computed_iff.mpr ⟨p, e, rfl, he⟩
  rw [Program.returned_value (raceFree op c) h hcomputed hret]
  exact value_assembled hp he

end GdaProxyAllreduce
