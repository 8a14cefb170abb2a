import Rocshmem.CompactSlots
import Rocshmem.GdaBufferRegistry

/-! The tables that translate addresses of symmetric user buffers. Every queue pair reads its
own slice of one flat array of entries, the IPC path a table of regions; both are kept without
holes by moving the last row into a freed slot. PEs register together and unregister alone. -/
namespace SymmetricTables

open CompactSlots Function GdaBufferRegistry OrderedMaps RangeMaps
open OrderedMap (mem_erase mem_insert)

structure QpSymmEntry where
  localBase : UInt64
  remoteBase : UInt64
  length : UInt64
  rkey : UInt32
  lkey : UInt32
  deriving DecidableEq, Repr

structure IpcSymmRegion where
  localBase : UInt64
  length : UInt64
  peerBases : ℕ → UInt64

/-- What is fixed at setup: the heap of each PE and its keys, the addresses at which a PE has
mapped the heaps of its IPC peers, and whether there is an IPC table. -/
structure Setup where
  numPes : ℕ
  numNics : ℕ
  symmCapacity : ℕ
  heapBases : ℕ → UInt64
  heapSize : UInt64
  heapFits : ∀ pe, (heapBases pe).toNat + heapSize.toNat < 2 ^ 64
  heapRkeys : ℕ → ℕ → UInt32
  ipcBases : ℕ → ℕ → UInt64
  hasIpc : Bool

abbrev Entries := ℕ → QpSymmEntry

variable {pe n s : ℕ}

namespace Setup

variable (su : Setup)

def slotIndex (pe n slot : ℕ) : ℕ := (pe * su.numNics + n) * su.symmCapacity + slot

def slices : List (ℕ × ℕ) :=
  (List.range su.numPes).flatMap fun pe => (List.range su.numNics).map fun n => (pe, n)

def writeSlices (slot : ℕ) (value : Entries → ℕ → ℕ → QpSymmEntry) (entries : Entries) : Entries :=
  su.slices.foldl
    (fun es s => update es (su.slotIndex s.1 s.2 slot) (value es s.1 s.2)) entries

theorem mem_slices : (pe, n) ∈ su.slices ↔ pe < su.numPes ∧ n < su.numNics := by
  simp [slices]

variable {su}

theorem slotIndex_inj {pe' n' s' : ℕ} (hn : n < su.numNics) (hn' : n' < su.numNics)
    (hs : s < su.symmCapacity) (hs' : s' < su.symmCapacity)
    (h : su.slotIndex pe n s = su.slotIndex pe' n' s') : pe = pe' ∧ n = n' ∧ s = s' := by
  unfold slotIndex at h
  have hrow : s = s' := by
    have := congrArg (· % su.symmCapacity) h
    simpa [Nat.mul_add_mod_self_right, Nat.mod_eq_of_lt hs, Nat.mod_eq_of_lt hs'] using this
  subst hrow
  have hslice : pe * su.numNics + n = pe' * su.numNics + n' :=
    Nat.eq_of_mul_eq_mul_right (Nat.zero_lt_of_lt hs) (Nat.add_right_cancel h)
  have hnic : n = n' := by
    have := congrArg (· % su.numNics) hslice
    simpa [Nat.mul_add_mod_self_right, Nat.mod_eq_of_lt hn, Nat.mod_eq_of_lt hn'] using this
  subst hnic
  exact ⟨Nat.eq_of_mul_eq_mul_right (Nat.zero_lt_of_lt hn) (Nat.add_right_cancel hslice), rfl, rfl⟩

theorem writeSlices_read {slot : ℕ} {value : Entries → ℕ → ℕ → QpSymmEntry} {entries : Entries}
    (new : ℕ → ℕ → QpSymmEntry) (hslot : slot < su.symmCapacity) (hvalue : ∀ es : Entries,
      (∀ pe, ∀ n < su.numNics, ∀ s < su.symmCapacity, s ≠ slot →
        es (su.slotIndex pe n s) = entries (su.slotIndex pe n s)) →
      ∀ pe, ∀ n < su.numNics, value es pe n = new pe n)
    (hpe : pe < su.numPes) (hn : n < su.numNics) (hs : s < su.symmCapacity) :
    su.writeSlices slot value entries (su.slotIndex pe n s) =
      if s = slot then new pe n else entries (su.slotIndex pe n s) := by
  -- by induction on the slices still to be written, over the array as it is by then
  suffices hloop : ∀ l : List (ℕ × ℕ), (∀ x ∈ l, x.2 < su.numNics) → ∀ es : Entries,
      (∀ pe, ∀ n < su.numNics, ∀ s < su.symmCapacity, s ≠ slot →
        es (su.slotIndex pe n s) = entries (su.slotIndex pe n s)) →
      (l.foldl (fun es s => update es (su.slotIndex s.1 s.2 slot) (value es s.1 s.2)) es)
        (su.slotIndex pe n s) =
        if s = slot ∧ (pe, n) ∈ l then new pe n else es (su.slotIndex pe n s) by
    rw [writeSlices, hloop su.slices (fun x hx => ((su.mem_slices).mp hx).2) entries
      (fun _ _ _ _ _ _ => rfl)]
    simp [su.mem_slices, hpe, hn]
  intro l
  induction l with
  | nil => simp
  | cons x l ih =>
    intro hl es hes
    obtain ⟨p, m⟩ := x
    have hm : m < su.numNics := hl (p, m) List.mem_cons_self
    rw [List.foldl_cons, ih (fun y hy => hl y (List.mem_cons_of_mem _ hy))]
    · grind [slotIndex_inj]
    · grind [slotIndex_inj]

end Setup

/-- What a PE knows of a registered buffer after the exchanges: the copies of all PEs, their
keys for each NIC, its own keys, and where it has mapped the copies of its IPC peers. -/
structure Registration where
  length : UInt64
  bases : ℕ → UInt64
  rkeys : ℕ → ℕ → UInt32
  lkeys : ℕ → UInt32
  peerBases : ℕ → UInt64

def entryOf (key : UInt64) (r : Registration) (pe n : ℕ) : QpSymmEntry :=
  ⟨key, r.bases pe, r.length, r.rkeys pe n, r.lkeys n⟩

def regionOf (key : UInt64) (r : Registration) : IpcSymmRegion :=
  ⟨key, r.length, r.peerBases⟩

structure NicTable where
  slots : Slots UInt64
  entries : Entries

def NicTable.publish (su : Setup) (t : NicTable) (key : UInt64) (r : Registration) : NicTable where
  slots := t.slots.push key
  entries := su.writeSlices t.slots.count (fun _ pe n => entryOf key r pe n) t.entries

def Setup.compact (su : Setup) (slot last : ℕ) (entries : Entries) : Entries :=
  if slot ≠ last then su.writeSlices slot (fun es pe n => es (su.slotIndex pe n last)) entries
  else entries

def NicTable.gdaNicUnregister (su : Setup) (t : NicTable) (key : UInt64) : Option NicTable :=
  match t.slots.records.find key with
  | none => none
  | some (_, slot) =>
    some ⟨t.slots.remove key, su.compact slot (t.slots.count - 1) t.entries⟩

structure IpcTable where
  slots : Slots UInt64
  regions : ℕ → IpcSymmRegion

def IpcTable.publish (t : IpcTable) (key : UInt64) (r : Registration) : IpcTable where
  slots := t.slots.push key
  regions := update t.regions t.slots.count (regionOf key r)

def IpcTable.unregisterIpcSymmRegion (t : IpcTable) (key : UInt64) : Option IpcTable :=
  match t.slots.records.find key with
  | none => none
  | some (_, slot) =>
    let last := t.slots.count - 1
    some ⟨t.slots.remove key,
      if slot ≠ last then update t.regions slot (t.regions last) else t.regions⟩

structure Tables where
  nic : NicTable
  ipc : IpcTable

namespace Tables

variable (su : Setup) (t : Tables)

def register (key : UInt64) (r : Registration) : Tables where
  nic := t.nic.publish su key r
  ipc := if su.hasIpc then t.ipc.publish key r else t.ipc

def bufferUnregisterSymmetric (addr : UInt64) : Option Tables :=
  if addr = 0 then none
  else
    let ipc := if su.hasIpc then (t.ipc.unregisterIpcSymmRegion addr).getD t.ipc else t.ipc
    match t.nic.gdaNicUnregister su addr with
    | some nic => some ⟨nic, ipc⟩
    | none => none

def symmetricBufferUnregisterAll : Tables :=
  let keys := t.nic.slots.records.entries.map Prod.fst
  if keys = [] then t
  else
    { nic := { t.nic with slots := .empty }
      ipc :=
        if su.hasIpc then
          keys.foldl (fun ipc key => (ipc.unregisterIpcSymmRegion key).getD ipc) t.ipc
        else t.ipc }

def getRaddrInfo (me pe n : ℕ) (addr : UInt64) : UInt64 × UInt32 :=
  if isPtrInRange (su.heapBases me) su.heapSize addr then
    (su.heapBases pe + (addr - su.heapBases me), su.heapRkeys pe n)
  else
    let entry i := t.nic.entries (su.slotIndex pe n i)
    match (List.range t.nic.slots.count).find? fun i =>
        isPtrInRange (entry i).localBase (entry i).length addr with
    | some i => ((entry i).remoteBase + (addr - (entry i).localBase), (entry i).rkey)
    | none => (0, 0)

def ipcPeerPtr (me peer : ℕ) (addr : UInt64) : UInt64 :=
  if addr - su.heapBases me < su.heapSize then
    su.ipcBases me peer + (addr - su.heapBases me)
  else if su.hasIpc then
    let region := t.ipc.regions
    match (List.range t.ipc.slots.count).find? fun i =>
        (region i).localBase ≤ addr ∧ addr < (region i).localBase + (region i).length with
    | some i => (region i).peerBases peer + (addr - (region i).localBase)
    | none => 0
  else 0

end Tables

abbrev Live := OrderedMap UInt64 Registration

def exposed (su : Setup) (live : Live) : Live := if su.hasIpc then live else .empty

def range (e : UInt64 × Registration) : UInt64 × UInt64 := (e.1, e.2.length)

def heapRange (su : Setup) (me : ℕ) : UInt64 × UInt64 := (su.heapBases me, su.heapSize)

def NicRow (su : Setup) (entries : Entries) (key : UInt64) (r : Registration) (i : ℕ) : Prop :=
  ∀ pe < su.numPes, ∀ n < su.numNics, entries (su.slotIndex pe n i) = entryOf key r pe n

def IpcRow (regions : ℕ → IpcSymmRegion) (key : UInt64) (r : Registration) (i : ℕ) : Prop :=
  regions i = regionOf key r

section Rows

variable {su : Setup} {live : Live} {key : UInt64} {r : Registration}

theorem Setup.compact_read {slot last : ℕ} {entries : Entries} (hslot : slot < su.symmCapacity)
    (hlast : last < su.symmCapacity) (hpe : pe < su.numPes) (hn : n < su.numNics)
    (hs : s < su.symmCapacity) : su.compact slot last entries (su.slotIndex pe n s) =
      entries (su.slotIndex pe n (if s = slot then last else s)) := by
  unfold Setup.compact
  by_cases heq : slot = last
  · subst heq
    rw [if_neg (not_not.mpr rfl)]
    split_ifs with hrow
    · rw [hrow]
    · rfl
  · rw [if_pos heq, writeSlices_read (fun pe n => entries (su.slotIndex pe n last)) hslot
      (fun es hes pe n hn => hes pe n hn last hlast (Ne.symm heq)) hpe hn hs]
    split_ifs <;> rfl

structure NicTable.Shown (su : Setup) (t : NicTable) (live : Live) : Prop where
  shows : t.slots.Shows live (NicRow su t.entries)
  room : t.slots.count ≤ su.symmCapacity

theorem NicTable.publish_read {t : NicTable} (hroom : t.slots.count < su.symmCapacity)
    (hpe : pe < su.numPes) (hn : n < su.numNics) (hs : s < su.symmCapacity) :
    (t.publish su key r).entries (su.slotIndex pe n s) =
      if s = t.slots.count then entryOf key r pe n else t.entries (su.slotIndex pe n s) :=
  Setup.writeSlices_read (entryOf key r) hroom (fun _ _ _ _ _ => rfl) hpe hn hs

theorem NicTable.publish_old {t : NicTable} (hroom : t.slots.count < su.symmCapacity)
    {i : ℕ} (hpe : pe < su.numPes) (hn : n < su.numNics) (hi : i < t.slots.count) :
    (t.publish su key r).entries (su.slotIndex pe n i) = t.entries (su.slotIndex pe n i) :=
  (publish_read hroom hpe hn (Nat.lt_trans hi hroom)).trans (if_neg hi.ne)

theorem NicTable.unregister_publish {t : NicTable} (hfresh : ∀ e ∈ t.slots.records, e.1 ≠ key) :
    (t.publish su key r).gdaNicUnregister su key =
      some ⟨t.slots, (t.publish su key r).entries⟩ := by
  have hrec : (key, t.slots.count) ∈ (t.slots.push key).records :=
    mem_insert.mpr (.inl rfl)
  have hfind : (t.publish su key r).slots.records.find key = some (key, t.slots.count) :=
    OrderedMap.find_some_iff.mpr ⟨hrec, rfl⟩
  unfold NicTable.gdaNicUnregister
  rw [hfind]
  have hslots : (t.publish su key r).slots.remove key = t.slots := Slots.remove_push hfresh
  have hlast : (t.publish su key r).slots.count - 1 = t.slots.count := rfl
  dsimp only
  rw [hslots, hlast, Setup.compact, if_neg (not_not.mpr rfl)]

theorem NicTable.Shown.publish {t : NicTable} (h : t.Shown su live)
    (hfresh : ∀ e ∈ live, e.1 ≠ key) (hroom : t.slots.count < su.symmCapacity) :
    (t.publish su key r).Shown su (live.insert key r) := by
  refine ⟨h.shows.push hfresh (fun pe hpe n hn => ?_) (fun a c i hi hrow pe hpe n hn => ?_), hroom⟩
  · exact (publish_read hroom hpe hn hroom).trans (if_pos rfl)
  · exact (publish_old hroom hpe hn hi).trans (hrow pe hpe n hn)

theorem NicTable.Shown.entries {t : NicTable} (h : t.Shown su live) {entries : Entries}
    (hsame : ∀ pe < su.numPes, ∀ n < su.numNics, ∀ i < t.slots.count,
      entries (su.slotIndex pe n i) = t.entries (su.slotIndex pe n i)) :
    NicTable.Shown su ⟨t.slots, entries⟩ live := by
  refine ⟨⟨h.shows.exact, h.shows.keys, fun {a i b} hrec hlive pe hpe n hn => ?_⟩, h.room⟩
  exact (hsame pe hpe n hn i (h.shows.exact.slot_lt hrec)).trans
    (h.shows.rows hrec hlive pe hpe n hn)

theorem NicTable.Shown.unregister {t t' : NicTable} (h : t.Shown su live)
    (ht : t.gdaNicUnregister su key = some t') : t'.Shown su (live.erase key) := by
  unfold NicTable.gdaNicUnregister at ht
  cases hfind : t.slots.records.find key with
  | none =>
    rw [hfind] at ht
    cases ht
  | some e =>
    obtain ⟨k, slot⟩ := e
    obtain ⟨hrec, rfl⟩ := OrderedMap.find_some_iff.mp hfind
    rw [hfind] at ht
    cases ht
    have hroom := h.room
    have hslot : slot < t.slots.count := h.shows.exact.slot_lt hrec
    have hlast : t.slots.count - 1 < su.symmCapacity := by omega
    refine ⟨h.shows.remove hrec (fun a c hrow pe hpe n hn => ?_)
      (fun a c i hi hne hrow pe hpe n hn => ?_), ?_⟩
    · refine (Setup.compact_read (by omega) hlast hpe hn (by omega)).trans ?_
      rw [if_pos rfl]
      exact hrow pe hpe n hn
    · refine (Setup.compact_read (by omega) hlast hpe hn (by omega)).trans ?_
      rw [if_neg hne]
      exact hrow pe hpe n hn
    · rw [Slots.remove_of_mem hrec]
      exact hlast.le

def IpcTable.Shown (t : IpcTable) (live : Live) : Prop := t.slots.Shows live (IpcRow t.regions)

theorem IpcTable.Shown.publish {t : IpcTable} (h : t.Shown live) (hfresh : ∀ e ∈ live, e.1 ≠ key) :
    (t.publish key r).Shown (live.insert key r) := by
  refine Slots.Shows.push h hfresh ?_ (fun a c i hi hrow => ?_)
  · simp [IpcRow, IpcTable.publish]
  · simpa [IpcRow, IpcTable.publish, hi.ne] using hrow

theorem IpcTable.Shown.unregister {t : IpcTable} (h : t.Shown live) :
    ((t.unregisterIpcSymmRegion key).getD t).Shown (live.erase key) := by
  unfold IpcTable.unregisterIpcSymmRegion
  cases hfind : t.slots.records.find key with
  | none =>
    -- nothing is recorded under the key, so nothing is live under it
    have hfresh := h.keys.symm.fresh (OrderedMap.find_none_iff.mp hfind)
    rw [OrderedMap.erase_of_fresh hfresh]
    exact h
  | some e =>
    obtain ⟨k, slot⟩ := e
    obtain ⟨hrec, rfl⟩ := OrderedMap.find_some_iff.mp hfind
    refine Slots.Shows.remove h hrec (fun a c hrow => ?_) (fun a c i _ hne hrow => ?_)
    · dsimp only [IpcRow, Option.getD_some] at hrow ⊢
      split_ifs with hlast
      · rw [update_self]
        exact hrow
      · rw [not_not.mp hlast]
        exact hrow
    · dsimp only [IpcRow, Option.getD_some] at hrow ⊢
      split_ifs
      · rw [update_of_ne hne]
        exact hrow
      · exact hrow

end Rows

structure Tables.Shown (su : Setup) (t : Tables) (live : Live) : Prop where
  nic : t.nic.Shown su live
  ipc : t.ipc.Shown (exposed su live)

variable {e : UInt64 × Registration}

namespace Tables.Shown

variable {su : Setup} {t : Tables} {live : Live} {key : UInt64} {r : Registration}

theorem exposed_subset (h : e ∈ exposed su live) : e ∈ live := by
  unfold exposed at h
  split_ifs at h
  · exact h
  · exact absurd h (by simp)

theorem register (h : t.Shown su live) (hfresh : ∀ e ∈ live, e.1 ≠ key)
    (hroom : t.nic.slots.count < su.symmCapacity) :
    (t.register su key r).Shown su (live.insert key r) := by
  refine ⟨h.nic.publish hfresh hroom, ?_⟩
  have hipc := h.ipc
  unfold Tables.register exposed at *
  split_ifs at hipc ⊢
  · exact IpcTable.Shown.publish hipc hfresh
  · exact hipc

theorem unregister {t' : Tables} (h : t.Shown su live)
    (ht : t.bufferUnregisterSymmetric su key = some t') : t'.Shown su (live.erase key) := by
  have hkey : key ≠ 0 := by
    rintro rfl
    simp [Tables.bufferUnregisterSymmetric] at ht
  simp only [Tables.bufferUnregisterSymmetric, if_neg hkey] at ht
  cases hnic : t.nic.gdaNicUnregister su key with
  | none => simp [hnic] at ht
  | some nic =>
    simp only [hnic, Option.some.injEq] at ht
    subst ht
    refine ⟨h.nic.unregister hnic, ?_⟩
    have hipc := h.ipc
    unfold exposed at *
    split_ifs at hipc ⊢
    · exact IpcTable.Shown.unregister hipc
    · exact hipc

theorem mem_foldl_erase (keys : List UInt64) :
    e ∈ keys.foldl OrderedMap.erase live ↔ e ∈ live ∧ e.1 ∉ keys := by
  induction keys generalizing live with
  | nil => simp
  | cons key keys ih => rw [List.foldl_cons, ih]; simp [and_assoc]

theorem ipc_unregisterAll {ipc : IpcTable} (h : ipc.Shown live) (keys : List UInt64) :
    (keys.foldl (fun ipc key => (ipc.unregisterIpcSymmRegion key).getD ipc) ipc).Shown
      (keys.foldl OrderedMap.erase live) := by
  induction keys generalizing ipc live with
  | nil => exact h
  | cons key keys ih => exact ih h.unregister

theorem unregisterAll (h : t.Shown su live) :
    (t.symmetricBufferUnregisterAll su).Shown su .empty := by
  have hkeys : ∀ e ∈ live, e.1 ∈ t.nic.slots.records.entries.map Prod.fst := by
    intro e he
    obtain ⟨i, hi⟩ := h.nic.shows.recorded he
    exact List.mem_map_of_mem hi
  have hnone : (t.nic.slots.records.entries.map Prod.fst).foldl OrderedMap.erase live = .empty := by
    refine OrderedMap.ext_mem (fun e => ?_)
    rw [mem_foldl_erase]
    exact iff_of_false (fun he => he.2 (hkeys e he.1)) (OrderedMap.not_mem_empty e)
  unfold Tables.symmetricBufferUnregisterAll
  by_cases hempty : t.nic.slots.records.entries.map Prod.fst = []
  · rw [hempty] at hnone
    rw [if_pos hempty]
    exact hnone ▸ h
  · rw [if_neg hempty]
    refine ⟨⟨.empty, Nat.zero_le _⟩, ?_⟩
    have hipc := h.ipc
    unfold exposed at *
    split_ifs at hipc ⊢
    · exact hnone ▸ ipc_unregisterAll hipc _
    · exact hipc

end Tables.Shown

structure Bijection (s : Slots UInt64) (live : Live) : Prop where
  keys : s.records.SameKeys live
  below : ∀ e ∈ s.records, e.2 < s.count
  onto : ∀ i < s.count, ∃! e, e ∈ s.records ∧ e.2 = i

theorem bijection_of_shows {s : Slots UInt64} {live : Live}
    {row : UInt64 → Registration → ℕ → Prop} (h : s.Shows live row) : Bijection s live where
  keys := h.keys
  below _ he := h.exact.slot_lt he
  onto i hi := by
    obtain ⟨e, he, hslot⟩ := h.exact.slot_owned hi
    refine ⟨e, ⟨he, hslot⟩, ?_⟩
    rintro f ⟨hf, hfslot⟩
    exact h.exact.eq_of_slot_eq hf he (hfslot.trans hslot.symm)

structure Laid (su : Setup) (me : ℕ) (live : Live) : Prop where
  pos : ∀ e ∈ live, 0 < e.2.length.toNat
  fits : ∀ e ∈ live, e.1.toNat + e.2.length.toNat < 2 ^ 64
  heap : ∀ e ∈ live, Apart (heapRange su me) (range e)
  apart : ∀ e ∈ live, ∀ f ∈ live, e ≠ f → Apart (range e) (range f)

structure Fresh (su : Setup) (me : ℕ) (live : Live) (aliasStart length : UInt64) : Prop where
  pos : 0 < length.toNat
  fits : aliasStart.toNat + length.toNat < 2 ^ 64
  heap : Apart (heapRange su me) (aliasStart, length)
  live : ∀ e ∈ live, Apart (range e) (aliasStart, length)

section Layout

variable {su : Setup} {me : ℕ} {live : Live} {aliasStart : UInt64} {r : Registration}

theorem Laid.empty : Laid su me .empty where
  pos _ h := absurd h (by simp)
  fits _ h := absurd h (by simp)
  heap _ h := absurd h (by simp)
  apart _ h := absurd h (by simp)

theorem Laid.erase (h : Laid su me live) {key : UInt64} : Laid su me (live.erase key) where
  pos e he := h.pos e (OrderedMap.mem_erase.mp he).1
  fits e he := h.fits e (OrderedMap.mem_erase.mp he).1
  heap e he := h.heap e (OrderedMap.mem_erase.mp he).1
  apart e he f hf := h.apart e (OrderedMap.mem_erase.mp he).1 f (OrderedMap.mem_erase.mp hf).1

theorem Laid.insert (h : Laid su me live) (hfresh : Fresh su me live aliasStart r.length) :
    Laid su me (live.insert aliasStart r) where
  pos e he := by
    rcases mem_insert.mp he with rfl | ⟨he, -⟩
    · exact hfresh.pos
    · exact h.pos e he
  fits e he := by
    rcases mem_insert.mp he with rfl | ⟨he, -⟩
    · exact hfresh.fits
    · exact h.fits e he
  heap e he := by
    rcases mem_insert.mp he with rfl | ⟨he, -⟩
    · exact hfresh.heap
    · exact h.heap e he
  apart e he f hf hne := by
    rcases mem_insert.mp he with rfl | ⟨he, -⟩
    · rcases mem_insert.mp hf with rfl | ⟨hf, -⟩
      · exact absurd rfl hne
      · exact (hfresh.live f hf).symm
    · rcases mem_insert.mp hf with rfl | ⟨hf, -⟩
      · exact hfresh.live e he
      · exact h.apart e he f hf hne

theorem Laid.key_fresh (h : Laid su me live) {length : UInt64}
    (hfresh : Fresh su me live aliasStart length) : ∀ e ∈ live, e.1 ≠ aliasStart := by
  rintro e he rfl
  exact hfresh.live e he e.1.toNat ⟨Nat.le_refl _, Nat.lt_add_of_pos_right (h.pos e he)⟩
    ⟨Nat.le_refl _, Nat.lt_add_of_pos_right hfresh.pos⟩

theorem Laid.unique (h : Laid su me live) {a : ℕ} {f : UInt64 × Registration} (he : e ∈ live)
    (hf : f ∈ live) (hea : Covers (range e) a) (hfa : Covers (range f) a) : e = f := by
  by_contra hne
  exact h.apart e he f hf hne a hea hfa

end Layout

structure Translates {ρ : Type} (su : Setup) (me : ℕ) (live : Live) (inHeap : UInt64 → ρ)
    (inCopy : UInt64 × Registration → UInt64 → ρ) (null : ρ) (f : UInt64 → ρ) : Prop where
  heap : ∀ addr, Covers (heapRange su me) addr.toNat → f addr = inHeap addr
  buffer : ∀ e ∈ live, ∀ addr, Covers (range e) addr.toNat → f addr = inCopy e addr
  other : ∀ addr, ¬ Covers (heapRange su me) addr.toNat →
    (∀ e ∈ live, ¬ Covers (range e) addr.toNat) → f addr = null

section Lookups

variable {su : Setup} {t : Tables} {live : Live} {me : ℕ}

theorem getRaddrInfo_translates (h : t.Shown su live) (hlaid : Laid su me live)
    (hpe : pe < su.numPes) (hn : n < su.numNics) : Translates su me live
      (fun addr => (su.heapBases pe + (addr - su.heapBases me), su.heapRkeys pe n))
      (fun e addr => (e.2.bases pe + (addr - e.1), e.2.rkeys pe n)) (0, 0)
      (t.getRaddrInfo su me pe n) := by
  have htest : ∀ addr : UInt64, ∀ a c i, (a, c) ∈ live → NicRow su t.nic.entries a c i →
      (isPtrInRange (t.nic.entries (su.slotIndex pe n i)).localBase
        (t.nic.entries (su.slotIndex pe n i)).length addr = true ↔
          Covers (range (a, c)) addr.toNat) := by
    intro addr a c i _ hrow
    rw [hrow pe hpe n hn, isPtrInRange_iff]
    rfl
  refine ⟨fun addr hheap => ?_, fun e he addr hcov => ?_, fun addr hheap hnone => ?_⟩
  · rw [Tables.getRaddrInfo, if_pos (isPtrInRange_iff.mpr hheap)]
  · have hheap : ¬ isPtrInRange (su.heapBases me) su.heapSize addr = true :=
      fun hin => hlaid.heap e he addr.toNat (isPtrInRange_iff.mp hin) hcov
    obtain ⟨i, hfind, hrow⟩ := h.nic.shows.find_hit (htest addr)
      (fun e he f hf hea hfa => hlaid.unique he hf hea hfa) he hcov
    rw [Tables.getRaddrInfo, if_neg hheap]
    dsimp only
    rw [hfind]
    dsimp only
    rw [hrow pe hpe n hn]
    rfl
  · have hout : ¬ isPtrInRange (su.heapBases me) su.heapSize addr = true :=
      fun hin => hheap (isPtrInRange_iff.mp hin)
    rw [Tables.getRaddrInfo, if_neg hout]
    dsimp only
    rw [h.nic.shows.find_no_hit (htest addr) hnone]

theorem heap_compare_iff {addr : UInt64} :
    addr - su.heapBases me < su.heapSize ↔ Covers (heapRange su me) addr.toNat := by
  have hfits := su.heapFits me
  have haddr := addr.toNat_lt
  have hbase := (su.heapBases me).toNat_lt
  rw [UInt64.lt_iff_toNat_lt, UInt64.toNat_sub]
  unfold Covers heapRange
  dsimp only
  omega

theorem region_compare_iff {addr start length : UInt64}
    (hfits : start.toNat + length.toNat < 2 ^ 64) :
    start ≤ addr ∧ addr < start + length ↔ Covers (start, length) addr.toNat := by
  rw [UInt64.le_iff_toNat_le, UInt64.lt_iff_toNat_lt, UInt64.toNat_add, Nat.mod_eq_of_lt hfits]
  rfl

theorem ipcPeerPtr_translates (h : t.Shown su live) (hlaid : Laid su me live) (peer : ℕ) :
    Translates su me (exposed su live) (fun addr => su.ipcBases me peer + (addr - su.heapBases me))
      (fun e addr => e.2.peerBases peer + (addr - e.1)) 0 (t.ipcPeerPtr su me peer) := by
  have htest : ∀ addr : UInt64, ∀ a c i, (a, c) ∈ exposed su live →
      IpcRow t.ipc.regions a c i →
      (decide ((t.ipc.regions i).localBase ≤ addr ∧
        addr < (t.ipc.regions i).localBase + (t.ipc.regions i).length) = true ↔
          Covers (range (a, c)) addr.toNat) := by
    intro addr a c i hlive hrow
    rw [decide_eq_true_eq, hrow]
    exact region_compare_iff (hlaid.fits _ (Tables.Shown.exposed_subset hlive))
  refine ⟨fun addr hheap => ?_, fun e he addr hcov => ?_, fun addr hheap hnone => ?_⟩
  · rw [Tables.ipcPeerPtr, if_pos (heap_compare_iff.mpr hheap)]
  · have hheap : ¬ addr - su.heapBases me < su.heapSize := fun hin =>
      hlaid.heap e (Tables.Shown.exposed_subset he) addr.toNat (heap_compare_iff.mp hin) hcov
    have hipc : su.hasIpc = true := by
      by_contra hno
      simp [exposed, hno] at he
    obtain ⟨i, hfind, hrow⟩ := Slots.Shows.find_hit h.ipc (htest addr)
      (fun e he f hf hea hfa => hlaid.unique (Tables.Shown.exposed_subset he)
        (Tables.Shown.exposed_subset hf) hea hfa) he hcov
    rw [Tables.ipcPeerPtr, if_neg hheap, if_pos hipc]
    dsimp only
    rw [hfind]
    dsimp only
    rw [hrow]
    rfl
  · rw [Tables.ipcPeerPtr, if_neg (heap_compare_iff.not.mpr hheap)]
    split_ifs
    · dsimp only
      rw [Slots.Shows.find_no_hit h.ipc (htest addr) hnone]
    · rfl

end Lookups

structure Pe where
  tables : Tables
  live : Live

structure Collective where
  length : UInt64
  aliases : ℕ → UInt64
  rkeys : ℕ → ℕ → UInt32
  lkeys : ℕ → ℕ → UInt32
  mapped : ℕ → ℕ → UInt64

def Collective.on (c : Collective) (me : ℕ) : Registration :=
  ⟨c.length, c.aliases, c.rkeys, c.lkeys me, c.mapped me⟩

abbrev System := ℕ → Pe

def System.initial (entries : Entries) (regions : ℕ → IpcSymmRegion) : System :=
  fun _ => ⟨⟨⟨.empty, entries⟩, ⟨.empty, regions⟩⟩, .empty⟩

inductive Call where
  | register (c : Collective)
  | unregister (me : ℕ) (addr : UInt64)
  | unregisterAll (me : ℕ)

def Call.registered : Call → List Collective
  | .register c => [c]
  | _ => []

inductive Step (su : Setup) : System → Call → System → Prop where
  | register (sys : System) (c : Collective)
      (hfresh : ∀ me, Fresh su me (sys me).live (c.aliases me) c.length)
      (hroom : ∀ me, (sys me).tables.nic.slots.count < su.symmCapacity) :
      Step su sys (.register c) fun me =>
        ⟨(sys me).tables.register su (c.aliases me) (c.on me),
          (sys me).live.insert (c.aliases me) (c.on me)⟩
  | unregister (sys : System) (me : ℕ) (addr : UInt64) (t : Tables)
      (hsuccess : (sys me).tables.bufferUnregisterSymmetric su addr = some t) :
      Step su sys (.unregister me addr) (update sys me ⟨t, (sys me).live.erase addr⟩)
  | unregisterAll (sys : System) (me : ℕ) :
      Step su sys (.unregisterAll me)
        (update sys me ⟨(sys me).tables.symmetricBufferUnregisterAll su, .empty⟩)

inductive Reachable (su : Setup) : List Collective → System → Prop where
  | initial (entries : Entries) (regions : ℕ → IpcSymmRegion) :
      Reachable su [] (System.initial entries regions)
  | step {cs : List Collective} {sys sys' : System} {call : Call} :
      Reachable su cs sys → Step su sys call sys' → Reachable su (call.registered ++ cs) sys'

structure Pe.Sound (su : Setup) (cs : List Collective) (me : ℕ) (pe : Pe) : Prop where
  shown : pe.tables.Shown su pe.live
  laid : Laid su me pe.live
  -- the buffer was registered together with the copies of the peers
  origin : ∀ e ∈ pe.live, ∃ c ∈ cs, e = (c.aliases me, c.on me)

section Runs

variable {su : Setup} {cs : List Collective} {sys sys' : System} {call : Call}

theorem Pe.Sound.later {me : ℕ} {pe : Pe} {new : List Collective} (h : pe.Sound su cs me) :
    pe.Sound su (new ++ cs) me := by
  grind [Pe.Sound]

theorem step_sound (h : ∀ me, (sys me).Sound su cs me) (hstep : Step su sys call sys') :
    ∀ me, (sys' me).Sound su (call.registered ++ cs) me := by
  intro me
  have hold : (sys me).Sound su (call.registered ++ cs) me := (h me).later
  cases hstep with
  | register c hfresh hroom =>
    have hkey := hold.laid.key_fresh (hfresh me)
    refine ⟨hold.shown.register hkey (hroom me), hold.laid.insert (hfresh me), fun e he => ?_⟩
    rcases mem_insert.mp he with rfl | ⟨he, -⟩
    · exact ⟨c, List.mem_cons_self, rfl⟩
    · exact hold.origin e he
  | unregister who addr t hsuccess =>
    by_cases hme : me = who
    · subst hme
      rw [update_self]
      exact ⟨hold.shown.unregister hsuccess, hold.laid.erase,
        fun e he => hold.origin e (mem_erase.mp he).1⟩
    · rw [update_of_ne hme]
      exact hold
  | unregisterAll who =>
    by_cases hme : me = who
    · subst hme
      rw [update_self]
      exact ⟨hold.shown.unregisterAll, .empty, fun e he => absurd he (by simp)⟩
    · rw [update_of_ne hme]
      exact hold

theorem reachable_sound (h : Reachable su cs sys) : ∀ me, (sys me).Sound su cs me := by
  induction h with
  | initial entries regions =>
    intro me
    refine ⟨⟨⟨.empty, Nat.zero_le _⟩, ?_⟩, .empty, fun e he => absurd he (by simp [System.initial])⟩
    unfold exposed
    split_ifs <;> exact Slots.Shows.empty
  | step _ hstep ih => exact step_sound ih hstep

/-- After every history of registrations and unregistrations the slots of both tables are in
bijection with the live buffers, and both lookups translate exactly those, to the addresses that
the peers gave in the same registration. -/
theorem tables_translate (h : Reachable su cs sys) (me : ℕ) :
    (∀ e ∈ (sys me).live, ∃ c ∈ cs, e = (c.aliases me, c.on me)) ∧
    Bijection (sys me).tables.nic.slots (sys me).live ∧
    Bijection (sys me).tables.ipc.slots (exposed su (sys me).live) ∧
    (∀ pe < su.numPes, ∀ n < su.numNics,
      Translates su me (sys me).live
        (fun addr => (su.heapBases pe + (addr - su.heapBases me), su.heapRkeys pe n))
        (fun e addr => (e.2.bases pe + (addr - e.1), e.2.rkeys pe n)) (0, 0)
        ((sys me).tables.getRaddrInfo su me pe n)) ∧
    ∀ peer, Translates su me (exposed su (sys me).live)
      (fun addr => su.ipcBases me peer + (addr - su.heapBases me))
      (fun e addr => e.2.peerBases peer + (addr - e.1)) 0
      ((sys me).tables.ipcPeerPtr su me peer) := by
  obtain ⟨hshown, hlaid, horigin⟩ := reachable_sound h me
  refine ⟨horigin, bijection_of_shows hshown.nic.shows, bijection_of_shows hshown.ipc, ?_, ?_⟩
  · intro pe hpe n hn
    exact getRaddrInfo_translates hshown hlaid hpe hn
  · exact ipcPeerPtr_translates hshown hlaid

end Runs

def twoPes : Setup where
  numPes := 2
  numNics := 1
  symmCapacity := 4
  heapBases _ := 0x1000
  heapSize := 0x100
  heapFits _ := by decide
  heapRkeys pe _ := pe.toUInt32
  ipcBases _ peer := if peer = 0 then 0x1000 else 0x8000
  hasIpc := true

def shared (start : UInt64) (key : UInt32) : Collective where
  length := 0x100
  aliases me := if me = 0 then start else start + 0x80
  rkeys _ _ := key
  lkeys _ _ := key
  mapped _ peer := if peer = 0 then start else start + 0x4000

def blankEntries : Entries := fun _ => ⟨0, 0, 0, 0, 0⟩

def blankRegions : ℕ → IpcSymmRegion := fun _ => ⟨0, 0, fun _ => 0⟩

def firstGone : System :=
  let registered (sys : System) (c : Collective) : System := fun me =>
    ⟨(sys me).tables.register twoPes (c.aliases me) (c.on me),
      (sys me).live.insert (c.aliases me) (c.on me)⟩
  let both := registered (registered (.initial blankEntries blankRegions) (shared 0x2000 5))
    (shared 0x3000 6)
  update both 0
    ⟨((both 0).tables.bufferUnregisterSymmetric twoPes 0x2000).getD (both 0).tables,
      (both 0).live.erase 0x2000⟩

theorem shared_alias (start : UInt64) (key : UInt32) (me : ℕ)
    (hfits : start.toNat + 0x1000 < 2 ^ 64) : start.toNat ≤ ((shared start key).aliases me).toNat ∧
      ((shared start key).aliases me).toNat ≤ start.toNat + 0x80 := by
  unfold shared
  dsimp only
  split_ifs
  · omega
  · rw [UInt64.toNat_add]
    change _ ≤ (_ + 0x80) % 2 ^ 64 ∧ (_ + 0x80) % 2 ^ 64 ≤ _
    omega

theorem shared_fresh {start : UInt64} {key : UInt32} {live : Live} (me : ℕ)
    (hheap : 0x1100 ≤ start.toNat) (hfits : start.toNat + 0x1000 < 2 ^ 64)
    (hlive : ∀ e ∈ live, e.1.toNat + e.2.length.toNat ≤ start.toNat) :
    Fresh twoPes me live ((shared start key).aliases me) (shared start key).length := by
  obtain ⟨hlow, hhigh⟩ := shared_alias start key me hfits
  have hlen : (shared start key).length.toNat = 0x100 := rfl
  refine ⟨by omega, by omega, fun a hheap' hnew => ?_, fun e he a hold hnew => ?_⟩
  · have hend : a < 0x1000 + 0x100 := hheap'.2
    have hstart := hnew.1
    dsimp only at hstart
    omega
  · grind [Covers, range]

theorem firstGone_reachable : Reachable twoPes [shared 0x3000 6, shared 0x2000 5] firstGone := by
  have hnone : Reachable twoPes [] (.initial blankEntries blankRegions) := .initial _ _
  have hone := hnone.step (.register _ (shared 0x2000 5) (fun me => shared_fresh me (by decide)
    (by decide) (fun e he => absurd he (by simp [System.initial]))) (fun _ => show 0 < 4 by decide))
  have htwo := hone.step (.register _ (shared 0x3000 6) (fun me => shared_fresh me (by decide)
    (by decide) (fun e he => ?_)) (fun _ => show 1 < 4 by decide))
  · exact htwo.step (.unregister _ 0 0x2000 _ rfl)
  · rcases mem_insert.mp he with rfl | ⟨he, -⟩
    · have halias := (shared_alias 0x2000 5 me (by decide)).2
      exact Nat.le_trans (Nat.add_le_add_right halias _)
        (show 0x2000 + 0x80 + 0x100 ≤ 0x3000 by decide)
    · exact absurd he (by simp [System.initial])

/-- The row of the second buffer has moved into the first slot; its addresses still go to the
same offset of PE 1's copy, with its key. -/
theorem firstGone_translates :
    (firstGone 0).tables.getRaddrInfo twoPes 0 1 0 0x3010 = (0x3090, 6) ∧
      (firstGone 0).tables.getRaddrInfo twoPes 0 1 0 0x2010 = (0, 0) := by
  obtain ⟨-, -, -, hnic, -⟩ := tables_translate firstGone_reachable 0
  have htrans := hnic 1 (by decide) 0 (by decide)
  have hlive : ∀ e, e ∈ (firstGone 0).live ↔ e = (0x3000, (shared 0x3000 6).on 0) := by
    intro e
    refine mem_erase.trans ⟨?_, ?_⟩
    · rintro ⟨he, hkey⟩
      rcases mem_insert.mp he with rfl | ⟨he, -⟩
      · rfl
      · rcases mem_insert.mp he with rfl | ⟨he, -⟩
        · exact absurd rfl hkey
        · exact absurd he (by simp [System.initial])
    · rintro rfl
      exact ⟨mem_insert.mpr (.inl rfl), by decide⟩
  constructor
  · exact htrans.buffer _ ((hlive _).mpr rfl) 0x3010 ⟨by decide, by decide⟩
  · refine htrans.other 0x2010 (fun hcov => absurd hcov.2 (by decide)) (fun e he hcov => ?_)
    rw [(hlive e).mp he] at hcov
    exact absurd hcov.1 (by decide)

end SymmetricTables
