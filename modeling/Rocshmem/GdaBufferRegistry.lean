import Rocshmem.BufferRegistry

/-! User buffers of the GDA backend: the map of the base class, and on each queue pair a table
of buffers for the device and a map of memory regions for the NIC. The backend looks a buffer
up by any of its addresses, the map of memory regions only by its start. -/
namespace GdaBufferRegistry

open BufferRegistry List OrderedMaps RangeMaps

section Slots

variable {α : Type*} {used : α → Bool} {new blank x : α}

def putFirst (used : α → Bool) (new : α) : List α → List α
  | [] => []
  | x :: l => if used x then x :: putFirst used new l else new :: l

def clearFirst (p : α → Bool) (blank : α) : List α → List α
  | [] => []
  | x :: l => if p x then blank :: l else x :: clearFirst p blank l

variable {l : List α}

@[simp] theorem putFirst_length (l : List α) : (putFirst used new l).length = l.length := by
  induction l with
  | nil => rfl
  | cons x l ih =>
    unfold putFirst
    split_ifs <;> simp [ih]

@[simp] theorem clearFirst_length (p : α → Bool) (l : List α) :
    (clearFirst p blank l).length = l.length := by
  induction l with
  | nil => rfl
  | cons x l ih =>
    unfold clearFirst
    split_ifs <;> simp [ih]

theorem putFirst_mem (h : x ∈ putFirst used new l) : x = new ∨ x ∈ l := by
  induction l with
  | nil => cases h
  | cons y l ih =>
    grind [putFirst]

variable {p : α → Bool}

theorem clearFirst_mem (h : x ∈ clearFirst p blank l) : x = blank ∨ x ∈ l := by
  induction l with
  | nil => cases h
  | cons y l ih =>
    grind [clearFirst]

theorem putFirst_perm (hnew : used new = true) (hroom : (l.filter used).length < l.length) :
    ((putFirst used new l).filter used).Perm (new :: l.filter used) := by
  induction l with
  | nil => exact absurd hroom (by simp)
  | cons x l ih =>
    unfold putFirst
    split_ifs with hx
    · simp only [filter_cons, hx, if_true]
      have hroom' : (l.filter used).length < l.length := by
        simpa [filter_cons, hx] using hroom
      exact ((ih hroom').cons x).trans (List.Perm.swap new x _)
    · simp [hx, hnew]

theorem clearFirst_perm (hblank : used blank = false) (hfind : l.find? p = some x)
    (hx : used x = true) :
    (l.filter used).Perm (x :: (clearFirst p blank l).filter used) := by
  induction l with
  | nil => cases hfind
  | cons y l ih =>
    unfold clearFirst
    rw [find?_cons] at hfind
    split at hfind
    · rename_i hp
      cases hfind
      simp [hp, hx, hblank]
    · rename_i hp
      rw [if_neg (by simp [hp])]
      by_cases hy : used y = true
      · simp only [filter_cons, hy, if_true]
        exact ((ih hfind).cons y).trans (List.Perm.swap x y _)
      · simp only [filter_cons, hy]
        exact ih hfind

end Slots

def isPtrInRange (ptrA lenA ptrB : UInt64) : Bool :=
  if lenA = 0 ∨ ptrB < ptrA then false else ptrB - ptrA < lenA

theorem isPtrInRange_iff {ptrA lenA ptrB : UInt64} :
    isPtrInRange ptrA lenA ptrB = true ↔ Covers (ptrA, lenA) ptrB.toNat := by
  unfold isPtrInRange Covers
  dsimp only
  split_ifs with hout
  · simp only [false_iff, not_and, not_lt]
    rcases hout with rfl | hlt
    · intro hle
      simpa using hle
    · intro hle
      rw [UInt64.lt_iff_toNat_lt] at hlt
      omega
  · push Not at hout
    obtain ⟨-, hge⟩ := hout
    rw [decide_eq_true_eq, UInt64.lt_iff_toNat_lt, UInt64.toNat_sub_of_le _ _ hge]
    rw [UInt64.le_iff_toNat_le] at hge
    omega

structure UserBufInfo where
  addr : UInt64
  length : UInt64
  lkey : UInt32
  deriving DecidableEq, Repr

def UserBufInfo.used (i : UserBufInfo) : Bool := i.addr ≠ 0

def UserBufInfo.contains (addr : UInt64) (i : UserBufInfo) : Bool :=
  isPtrInRange i.addr i.length addr

def UserBufInfo.blank : UserBufInfo := ⟨0, 0, 0⟩

structure QueuePair where
  userBufInfo : List UserBufInfo
  userBufferMrs : OrderedMap UInt64 UserBufInfo

def QueuePair.bufferRegister (qp : QueuePair) (addr length : UInt64) (lkey : UInt32) :
    Status × QueuePair :=
  if qp.userBufferMrs.size ≥ qp.userBufInfo.length then (.error, qp)
  else
    (.success,
      { userBufInfo := putFirst UserBufInfo.used ⟨addr, length, lkey⟩ qp.userBufInfo
        userBufferMrs := qp.userBufferMrs.insert addr ⟨addr, length, lkey⟩ })

def QueuePair.bufferUnregister (qp : QueuePair) (addr : UInt64) : Option QueuePair :=
  match qp.userBufferMrs.find addr with
  | none => none
  | some _ => some
    { userBufInfo := clearFirst (UserBufInfo.contains addr) .blank qp.userBufInfo
      userBufferMrs := qp.userBufferMrs.erase addr }

structure State where
  regions : RangeMap
  qps : List QueuePair

def bufferRegister (s : State) (addr length : UInt64) (lkeys : ℕ → UInt32) : Status × State :=
  let base := BufferRegistry.bufferRegister s.regions addr length
  if base.1 ≠ .success then (.error, s)
  else
    let results := s.qps.mapIdx (fun i qp => qp.bufferRegister addr length (lkeys i))
    if results.any (fun r => r.1 ≠ .success) then
      (.error, ⟨(BufferRegistry.bufferUnregister base.2 addr).2, results.map Prod.snd⟩)
    else (.success, ⟨base.2, results.map Prod.snd⟩)

def unregisterAll (addr : UInt64) : List QueuePair → Option (List QueuePair)
  | [] => some []
  | qp :: rest =>
    match qp.bufferUnregister addr with
    | none => none
    | some qp' => (unregisterAll addr rest).map (qp' :: ·)

def bufferUnregister (s : State) (addr : UInt64) : Option (Status × State) :=
  let base := BufferRegistry.bufferUnregister s.regions addr
  if base.1 ≠ .success then some (.error, s)
  else (unregisterAll addr s.qps).map (fun qps => (.success, ⟨base.2, qps⟩))

structure Device where
  baseHeap : UInt64
  baseHeapSize : UInt64
  lkey : UInt32
  symmEntries : List UserBufInfo

def getLkey (d : Device) (qp : QueuePair) (addr : UInt64) : Option UInt32 :=
  if isPtrInRange d.baseHeap d.baseHeapSize addr then some d.lkey
  else match qp.userBufInfo.find? (UserBufInfo.contains addr) with
  | some i => some i.lkey
  | none => (d.symmEntries.find? (UserBufInfo.contains addr)).map UserBufInfo.lkey

/-- The queue pair knows exactly the live ranges: each is in one slot of the table, and the
memory regions are those of the slots in use. -/
structure Describes (regions : RangeMap) (qp : QueuePair) : Prop where
  table : ((qp.userBufInfo.filter UserBufInfo.used).map (fun i => (i.addr, i.length))).Perm
    regions.entries
  mrs : (qp.userBufferMrs.entries.map Prod.snd).Perm (qp.userBufInfo.filter UserBufInfo.used)
  keys : ∀ e ∈ qp.userBufferMrs, e.1 = e.2.addr
  free : ∀ i ∈ qp.userBufInfo, i.used = false → i.length = 0

section Describes

variable {regions after : RangeMap} {qp : QueuePair} (h : Describes regions qp)

include h

theorem Describes.mrs_size : qp.userBufferMrs.size = regions.entries.length := by
  have hmrs := h.mrs.length_eq
  have htable := h.table.length_eq
  simp only [length_map] at hmrs htable
  exact hmrs.trans htable

variable {i : UserBufInfo}

theorem Describes.slot_mem (hi : i ∈ qp.userBufInfo) (hu : i.used = true) :
    (i.addr, i.length) ∈ regions := by
  have hmem : i ∈ qp.userBufInfo.filter UserBufInfo.used := mem_filter.mpr ⟨hi, hu⟩
  exact h.table.mem_iff.mp (mem_map.mpr ⟨i, hmem, rfl⟩)

variable {e : UInt64 × UInt64}

theorem Describes.slot_of_mem (he : e ∈ regions) :
    ∃ i ∈ qp.userBufInfo, i.used = true ∧ (i.addr, i.length) = e := by
  obtain ⟨i, hi, rfl⟩ := mem_map.mp (h.table.mem_iff.mpr he)
  exact ⟨i, (mem_filter.mp hi).1, (mem_filter.mp hi).2, rfl⟩

theorem Describes.used_of_contains {addr : UInt64} (hi : i ∈ qp.userBufInfo)
    (hc : i.contains addr = true) : i.used = true := by
  by_contra hfree
  have hlen := h.free i hi (by simpa using hfree)
  have hcov := isPtrInRange_iff.mp hc
  rw [hlen] at hcov
  obtain ⟨h1, h2⟩ := hcov
  simp at h1 h2
  omega

variable {addr length : UInt64}

theorem Describes.register (lkey : UInt32) (haddr : addr ≠ 0) (hfresh : ∀ e ∈ regions, e.1 ≠ addr)
    (hafter : ∀ e, e ∈ after ↔ e = (addr, length) ∨ e ∈ regions)
    (hroom : regions.entries.length < qp.userBufInfo.length) :
    (qp.bufferRegister addr length lkey).1 = .success ∧
    Describes after (qp.bufferRegister addr length lkey).2 := by
  have hsize := h.mrs_size
  have hroom' : ¬ qp.userBufferMrs.size ≥ qp.userBufInfo.length := by omega
  have hused : UserBufInfo.used ⟨addr, length, lkey⟩ = true := by simp [UserBufInfo.used, haddr]
  have hslots : (qp.userBufInfo.filter UserBufInfo.used).length < qp.userBufInfo.length := by
    have := h.table.length_eq
    rw [length_map] at this
    omega
  have hput := putFirst_perm hused hslots
  have hkeys : ∀ e ∈ qp.userBufferMrs, e.1 ≠ addr := by
    intro e he heq
    have hslot : e.2 ∈ qp.userBufInfo.filter UserBufInfo.used :=
      h.mrs.mem_iff.mp (mem_map.mpr ⟨e, he, rfl⟩)
    obtain ⟨hin, hu⟩ := mem_filter.mp hslot
    exact hfresh _ (h.slot_mem hin hu) ((h.keys e he).symm.trans heq)
  rw [QueuePair.bufferRegister, if_neg hroom']
  refine ⟨rfl, ?_, ?_, ?_, ?_⟩
  · have hmap := hput.map (fun i : UserBufInfo => (i.addr, i.length))
    have hadd : after.entries.Perm ((addr, length) :: regions.entries) :=
      OrderedMap.perm_cons hafter fun hmem => hfresh _ hmem rfl
    exact (hmap.trans (h.table.cons _)).trans hadd.symm
  · grind [Describes, OrderedMap.insert_perm]
  · intro e he
    rcases OrderedMap.mem_insert.mp he with rfl | ⟨he', -⟩
    · rfl
    · exact h.keys e he'
  · grind [Describes, putFirst_mem]

theorem Describes.register_full (lkey : UInt32)
    (hfull : ¬ regions.entries.length < qp.userBufInfo.length) :
    qp.bufferRegister addr length lkey = (.error, qp) := by
  have hsize := h.mrs_size
  exact if_pos (by omega)

theorem Describes.unregister (he : e ∈ regions) (hafter : ∀ f, f ∈ after ↔ f ∈ regions ∧ f ≠ e) :
    ∃ qp', qp.bufferUnregister e.1 = some qp' ∧ Describes after qp' ∧
      qp'.userBufInfo.length = qp.userBufInfo.length := by
  have hcov := regions.covers_start he
  -- the only slot that contains the start of the range is the slot of the range
  obtain ⟨i, hi, hiu, hie⟩ := h.slot_of_mem he
  have hic : i.contains e.1 = true := by
    rw [← hie] at hcov ⊢
    exact isPtrInRange_iff.mpr hcov
  obtain ⟨x, hfind⟩ : ∃ x, qp.userBufInfo.find? (UserBufInfo.contains e.1) = some x :=
    Option.isSome_iff_exists.mp (find?_isSome.mpr ⟨i, hi, hic⟩)
  have hxmem := mem_of_find?_eq_some hfind
  have hxc : x.contains e.1 = true := find?_some hfind
  have hxu := h.used_of_contains hxmem hxc
  have hxe : (x.addr, x.length) = e :=
    regions.eq_of_covers (h.slot_mem hxmem hxu) he (isPtrInRange_iff.mp hxc) hcov
  have hxslot : x ∈ qp.userBufInfo.filter UserBufInfo.used := mem_filter.mpr ⟨hxmem, hxu⟩
  -- so is the memory region
  obtain ⟨r, hr, hrx⟩ := mem_map.mp (h.mrs.mem_iff.mpr hxslot)
  have hkey : r.1 = e.1 := by
    rw [h.keys r hr, hrx, ← hxe]
  have hmr : qp.userBufferMrs.find e.1 = some r := OrderedMap.find_some_iff.mpr ⟨hr, hkey⟩
  have hblank : UserBufInfo.used .blank = false := by decide
  have hclear := clearFirst_perm hblank hfind hxu
  rw [QueuePair.bufferUnregister, hmr]
  refine ⟨_, rfl, ⟨?_, ?_, ?_, ?_⟩, clearFirst_length _ _⟩
  · have hmap := hclear.map (fun i : UserBufInfo => (i.addr, i.length))
    have hregions : regions.entries.Perm (e :: after.entries) := by
      refine OrderedMap.perm_cons (fun f => ?_) fun hmem => ((hafter e).mp hmem).2 rfl
      rw [show f ∈ after.toOrderedMap ↔ f ∈ regions ∧ f ≠ e from hafter f]
      exact ⟨fun hf => (em (f = e)).imp_right fun hne => ⟨hf, hne⟩,
        fun hf => hf.elim (fun heq => heq ▸ he) And.left⟩
    rw [map_cons, hxe] at hmap
    exact ((hmap.symm.trans h.table).trans hregions).cons_inv
  · have hmap := (OrderedMap.erase_perm hr).map Prod.snd
    rw [map_cons, hrx, hkey] at hmap
    exact ((hmap.symm.trans h.mrs).trans hclear).cons_inv
  · intro f hf
    exact h.keys f (OrderedMap.mem_erase.mp hf).1
  · intro j hj hfree
    rcases clearFirst_mem hj with rfl | hj'
    · rfl
    · exact h.free j hj' hfree

omit h in
theorem unregister_interior (h : Describes regions qp)
    (hno : ∀ e ∈ regions, e.1 ≠ addr) : qp.bufferUnregister addr = none := by
  have hfind : qp.userBufferMrs.find addr = none := by
    cases hsome : qp.userBufferMrs.find addr with
    | none => rfl
    | some r =>
      obtain ⟨hr, hkey⟩ := OrderedMap.find_some_iff.mp hsome
      have hslot := h.mrs.mem_iff.mp (mem_map.mpr ⟨r, hr, rfl⟩)
      obtain ⟨hin, hu⟩ := mem_filter.mp hslot
      exact absurd ((h.keys r hr).symm.trans hkey) (hno _ (h.slot_mem hin hu))
  rw [QueuePair.bufferUnregister, hfind]

theorem Describes.lkey_iff (d : Device) (addr : UInt64) : (getLkey d qp addr).isSome ↔
      Covers (d.baseHeap, d.baseHeapSize) addr.toNat ∨ (∃ e ∈ regions, Covers e addr.toNat) ∨
      ∃ i ∈ d.symmEntries, Covers (i.addr, i.length) addr.toNat := by
  unfold getLkey
  grind [UserBufInfo.contains, isPtrInRange_iff, Describes.slot_mem, Describes.slot_of_mem,
    Describes.used_of_contains]

end Describes

inductive Call where
  | register (addr length : UInt64) (lkeys : ℕ → UInt32)
  | unregister (addr : UInt64)

def step (s : State) : Call → Option (Status × State)
  | .register addr length lkeys => some (bufferRegister s addr length lkeys)
  | .unregister addr => bufferUnregister s addr

def Allowed (s : State) : Call → Prop
  | .register _ _ _ => True
  | .unregister addr => ∀ e ∈ s.regions, Covers e addr.toNat → e.1 = addr

def initial (count slots : ℕ) : State :=
  ⟨.empty, replicate count ⟨replicate slots .blank, .empty⟩⟩

inductive Reachable (count slots : ℕ) : State → Prop
  | init : Reachable count slots (initial count slots)
  | next {s t : State} {status : Status} (call : Call) : Reachable count slots s →
      Allowed s call → step s call = some (status, t) → Reachable count slots t

structure Consistent (slots : ℕ) (s : State) : Prop where
  starts_ne : ∀ e ∈ s.regions, e.1 ≠ 0
  describes : ∀ qp ∈ s.qps, Describes s.regions qp
  slots_eq : ∀ qp ∈ s.qps, qp.userBufInfo.length = slots

theorem initial_consistent (count slots : ℕ) : Consistent slots (initial count slots) := by
  refine ⟨fun e he => absurd he (by simp [initial, RangeMap.empty, ← RangeMap.mem_map]), ?_, ?_⟩
  · intro qp hqp
    obtain ⟨-, rfl⟩ := mem_replicate.mp hqp
    refine ⟨?_, ?_, fun e he => absurd he (by simp), ?_⟩
    · simp [UserBufInfo.used, UserBufInfo.blank, initial, RangeMap.empty, OrderedMap.empty]
    · simp [UserBufInfo.used, UserBufInfo.blank, OrderedMap.empty]
    · intro i hi _
      obtain ⟨-, rfl⟩ := mem_replicate.mp hi
      rfl
  · intro qp hqp
    obtain ⟨-, rfl⟩ := mem_replicate.mp hqp
    exact length_replicate

section Steps

variable {slots : ℕ} {s : State} (h : Consistent slots s)

include h

variable {addr length : UInt64}

theorem starts_ne_register (hreg : Registrable s.regions addr length) :
    ∀ e ∈ (BufferRegistry.bufferRegister s.regions addr length).2, e.1 ≠ 0 := by
  intro e he
  rcases ((register_accepts hreg).2 e).mp he with rfl | he'
  · exact hreg.addr_ne
  · exact h.starts_ne e he'

theorem rollback_regions (hreg : Registrable s.regions addr length) :
    (BufferRegistry.bufferUnregister
      (BufferRegistry.bufferRegister s.regions addr length).2 addr).2 = s.regions := by
  obtain ⟨-, hmem⟩ := register_accepts hreg
  have hnew := (hmem (addr, length)).mpr (.inl rfl)
  have hcov := (BufferRegistry.bufferRegister s.regions addr length).2.covers_start hnew
  have hne := starts_ne_register h hreg
  have hold : (addr, length) ∉ s.regions := fun he =>
    hreg.apart _ he _ hcov hcov
  rw [unregister_accepts hne hnew hcov]
  apply RangeMap.ext_mem
  intro e
  rw [RangeMap.mem_remove hnew, hmem]
  constructor
  · rintro ⟨rfl | he, hne⟩
    · exact absurd rfl hne
    · exact he
  · intro he
    exact ⟨.inr he, fun heq => hold (heq ▸ he)⟩

theorem register_with_room (lkeys : ℕ → UInt32) (hreg : Registrable s.regions addr length)
    (hroom : s.regions.entries.length < slots) (i : ℕ) (qp : QueuePair) (hqp : qp ∈ s.qps) :
    (qp.bufferRegister addr length (lkeys i)).1 = .success ∧
      Describes (BufferRegistry.bufferRegister s.regions addr length).2
        (qp.bufferRegister addr length (lkeys i)).2 := by
  have hfresh : ∀ e ∈ s.regions, e.1 ≠ addr := by
    rintro e he rfl
    have hcov : Covers (e.1, length) e.1.toNat :=
      ⟨Nat.le_refl _, Nat.lt_add_of_pos_right (length_pos hreg.length_ne)⟩
    exact hreg.apart e he e.1.toNat (s.regions.covers_start he) hcov
  have hlen := h.slots_eq qp hqp
  exact (h.describes qp hqp).register (lkeys i) hreg.addr_ne hfresh (register_accepts hreg).2
    (by omega)

theorem register_without_room (addr length : UInt64) (lkeys : ℕ → UInt32)
    (hroom : ¬ s.regions.entries.length < slots) (i : ℕ) (qp : QueuePair) (hqp : qp ∈ s.qps) :
    qp.bufferRegister addr length (lkeys i) = (.error, qp) := by
  have hlen := h.slots_eq qp hqp
  exact (h.describes qp hqp).register_full (lkeys i) (by omega)

theorem register_consistent (addr length : UInt64) (lkeys : ℕ → UInt32) :
    Consistent slots (bufferRegister s addr length lkeys).2 := by
  unfold bufferRegister
  dsimp only
  by_cases hreg : Registrable s.regions addr length
  swap
  · rw [register_refuses hreg, if_pos (by simp)]
    exact h
  rw [(register_accepts hreg).1, if_neg (by decide)]
  -- all tables are equally full, so all queue pairs answer alike
  by_cases hroom : s.regions.entries.length < slots
  · have hall := register_with_room h lkeys hreg hroom
    rw [if_neg]
    · refine ⟨starts_ne_register h hreg, fun qp' hqp' => ?_, fun qp' hqp' => ?_⟩
      · grind
      · grind [Consistent, QueuePair.bufferRegister, putFirst_length]
    · grind
  · have hall := register_without_room h addr length lkeys hroom
    split_ifs with hany
    · grind [Consistent, rollback_regions]
    · -- no queue pair at all
      have hnone : ∀ qp', qp' ∉ (s.qps.mapIdx
          (fun i qp => qp.bufferRegister addr length (lkeys i))).map Prod.snd := by
        grind
      exact ⟨starts_ne_register h hreg, fun qp' hqp' => absurd hqp' (hnone qp'),
        fun qp' hqp' => absurd hqp' (hnone qp')⟩

omit h in
theorem unregisterAll_some {regions : RangeMap} {qps : List QueuePair}
    (hall : ∀ qp ∈ qps, ∃ qp', qp.bufferUnregister addr = some qp' ∧ Describes regions qp' ∧
      qp'.userBufInfo.length = slots) : ∃ after, unregisterAll addr qps = some after ∧
      ∀ qp' ∈ after, Describes regions qp' ∧ qp'.userBufInfo.length = slots := by
  induction qps with
  | nil => exact ⟨[], rfl, fun _ hqp => by cases hqp⟩
  | cons qp rest ih =>
    obtain ⟨qp', hqp', hdesc⟩ := hall qp mem_cons_self
    obtain ⟨after, hafter, hrest⟩ := ih fun q hq => hall q (mem_cons_of_mem qp hq)
    refine ⟨qp' :: after, ?_, fun q hq => ?_⟩
    · simp [unregisterAll, hqp', hafter]
    · rcases mem_cons.mp hq with rfl | hq'
      · exact hdesc
      · exact hrest q hq'

theorem unregister_consistent
    (hstart : ∀ e ∈ s.regions, Covers e addr.toNat → e.1 = addr) :
    ∃ r, bufferUnregister s addr = some r ∧ Consistent slots r.2 := by
  unfold bufferUnregister
  dsimp only
  by_cases hcov : ∃ e ∈ s.regions, Covers e addr.toNat
  swap
  · push Not at hcov
    rw [unregister_refuses hcov, if_pos (by simp)]
    exact ⟨_, rfl, h⟩
  obtain ⟨e, he, hcov⟩ := hcov
  have haddr := hstart e he hcov
  rw [unregister_accepts h.starts_ne he hcov, if_neg (by simp)]
  have hall : ∀ qp ∈ s.qps, ∃ qp', qp.bufferUnregister addr = some qp' ∧
      Describes (s.regions.remove e.1) qp' ∧ qp'.userBufInfo.length = slots := by
    intro qp hqp
    obtain ⟨qp', hqp', hdesc, hlen⟩ := (h.describes qp hqp).unregister he
      (fun f => RangeMap.mem_remove he)
    rw [haddr] at hqp'
    exact ⟨qp', hqp', hdesc, hlen.trans (h.slots_eq qp hqp)⟩
  obtain ⟨after, hafter, hdesc⟩ := unregisterAll_some hall
  rw [hafter]
  refine ⟨_, rfl, fun f hf => ?_, fun qp' hqp' => (hdesc qp' hqp').1,
    fun qp' hqp' => (hdesc qp' hqp').2⟩
  exact h.starts_ne f ((RangeMap.mem_remove he).mp hf).1

theorem unregister_interior_dies {e : UInt64 × UInt64} (he : e ∈ s.regions)
    (hcov : Covers e addr.toNat) (hne : e.1 ≠ addr) (hqps : s.qps ≠ []) :
    bufferUnregister s addr = none := by
  have hno : ∀ f ∈ s.regions, f.1 ≠ addr := by
    rintro f hf rfl
    exact hne (by rw [s.regions.eq_of_covers he hf hcov (s.regions.covers_start hf)])
  unfold bufferUnregister
  dsimp only
  rw [unregister_accepts h.starts_ne he hcov, if_neg (by simp)]
  cases hcons : s.qps with
  | nil => exact absurd hcons hqps
  | cons qp rest =>
    have hqp : qp ∈ s.qps := by simp [hcons]
    simp [unregisterAll, unregister_interior (h.describes qp hqp) hno]

end Steps

theorem step_consistent {slots : ℕ} {s t : State} {call : Call} {status : Status}
    (h : Consistent slots s) (hallowed : Allowed s call)
    (hstep : step s call = some (status, t)) : Consistent slots t := by
  cases call with
  | register addr length lkeys =>
    grind [step, register_consistent]
  | unregister addr =>
    obtain ⟨r, hr, hcons⟩ := unregister_consistent h hallowed
    rw [show step s (.unregister addr) = some r from hr] at hstep
    cases hstep
    exact hcons

theorem reachable_consistent {count slots : ℕ} {s : State} (h : Reachable count slots s) :
    Consistent slots s := by
  induction h with
  | init => exact initial_consistent count slots
  | next call _ hallowed hstep ih => exact step_consistent ih hallowed hstep

/-- As long as every live range is unregistered by its start, all queue pairs know exactly the
live ranges and the device finds a key for exactly their addresses. Any other unregistration
ends the process. -/
theorem queue_pairs_describe_registry {count slots : ℕ} {s : State}
    (h : Reachable count slots s) :
    (∀ qp ∈ s.qps, Describes s.regions qp) ∧
    (∀ qp ∈ s.qps, ∀ d addr, (getLkey d qp addr).isSome ↔
      Covers (d.baseHeap, d.baseHeapSize) addr.toNat ∨ (∃ e ∈ s.regions, Covers e addr.toNat) ∨
      ∃ i ∈ d.symmEntries, Covers (i.addr, i.length) addr.toNat) ∧
    ∀ call, (step s call).isSome ↔ Allowed s call ∨ s.qps = [] := by
  have hcons := reachable_consistent h
  refine ⟨hcons.describes, fun qp hqp d addr => (hcons.describes qp hqp).lkey_iff d addr, ?_⟩
  intro call
  cases call with
  | register addr length lkeys => exact iff_of_true rfl (.inl trivial)
  | unregister addr =>
    constructor
    · intro hsome
      by_contra hnot
      push Not at hnot
      obtain ⟨hinterior, hqps⟩ := hnot
      simp only [Allowed, not_forall] at hinterior
      obtain ⟨e, he, hcov, hne⟩ := hinterior
      rw [step, unregister_interior_dies hcons he hcov hne hqps] at hsome
      cases hsome
    · rintro (hallowed | hqps)
      · obtain ⟨r, hr, -⟩ := unregister_consistent hcons hallowed
        rw [step, hr]
        rfl
      · rw [step, bufferUnregister, hqps]
        split_ifs <;> rfl

def oneBuffer : State := (bufferRegister (initial 2 4) 4096 64 (fun i => UInt32.ofNat i)).2

theorem oneBuffer_reachable : Reachable 2 4 oneBuffer :=
  .next (.register 4096 64 (fun i => UInt32.ofNat i)) .init trivial rfl

theorem oneBuffer_described :
    (∀ qp ∈ oneBuffer.qps, Describes oneBuffer.regions qp) ∧
    (step oneBuffer (.unregister 4096)).isSome := by
  obtain ⟨hdescribes, -, hsteps⟩ := queue_pairs_describe_registry oneBuffer_reachable
  refine ⟨hdescribes, (hsteps _).mpr (.inl ?_)⟩
  intro e he _
  obtain rfl := mem_singleton.mp (show e ∈ [((4096 : UInt64), (64 : UInt64))] from he)
  rfl

/-- The backend accepts an address inside the buffer, and the process ends. -/
theorem interior_address_ends_process :
    (BufferRegistry.bufferUnregister oneBuffer.regions 4100).1 = .success ∧
    (step oneBuffer (.unregister 4100)).isNone = true := by
  exact ⟨by decide, by decide⟩

end GdaBufferRegistry
