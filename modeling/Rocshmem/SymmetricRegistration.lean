import Rocshmem.SymmetricTables

/-! Collective registration of a symmetric buffer. Between the exchanges every PE takes local
steps that can fail; each exchange tells all PEs whether to go on or to undo what they did. A
PE waits in an exchange until all PEs have entered it. -/
namespace SymmetricRegistration

open OrderedMaps RangeMaps CompactSlots BufferRegistry SymmetricTables

structure SymmRegion where
  length : UInt64
  origBase : UInt64
  deriving DecidableEq, Repr

/-- The NIC resources of a registration: the keys of the memory region of each NIC, and the
allocation handle that is kept while they are registered through dmabuf. -/
structure GdaSymmRecord where
  mrs : List (ℕ × UInt32 × UInt32)
  genHandle : Option UInt64
  deriving DecidableEq, Repr

structure IpcSymmRecord where
  peers : List (ℕ × UInt64)
  exportAddr : UInt64
  deriving DecidableEq, Repr

/-- What a PE holds: mapped aliases, retained allocation handles, memory regions and dmabuf
descriptors by NIC and address, exported handles, and opened handles of IPC peers. -/
structure Held where
  aliases : Multiset UInt64
  handles : Multiset UInt64
  mrs : Multiset (ℕ × UInt64)
  fds : Multiset (ℕ × UInt64)
  exported : Multiset UInt64
  opened : Multiset (ℕ × UInt64)
  deriving DecidableEq

structure Store where
  regions : OrderedMap UInt64 SymmRegion
  origRegions : RangeMap
  tables : Tables
  records : OrderedMap UInt64 GdaSymmRecord
  ipcRecords : OrderedMap UInt64 IpcSymmRecord
  held : Held

def capacityOf (maxSymmRegions : ℕ) : ℕ :=
  let capacity := Int.bmod maxSymmRegions (2 ^ 32)
  if capacity ≤ 0 then 1 else capacity.toNat

structure Job extends Setup where
  maxSymmRegions : ℕ
  granularity : UInt64
  shmSize : ℕ → ℕ
  shmRank : ℕ → ℕ
  capacity_eq : symmCapacity = capacityOf maxSymmRegions

structure Args where
  addr : UInt64
  length : UInt64
  registeredAddrNull : Bool
  deriving DecidableEq, Repr

structure Fate where
  vmmOk : Bool
  mapLocalAlias : Option UInt64
  dmabufSupported : Bool
  retainHandle : Bool
  regMr : ℕ → Option (UInt32 × UInt32)
  getIpcHandle : Bool
  openIpcHandle : ℕ → Option UInt64

/-! ### The base class -/

def validateVMMRegistration (job : Job) (a : Args) (f : Fate) : Bool :=
  a.addr ≠ 0 ∧ a.length ≠ 0 ∧
    a.length % (if job.granularity = 0 then 1 else job.granularity) = 0 ∧ f.vmmOk

theorem length_ne_zero {job : Job} {a : Args} {f : Fate}
    (h : validateVMMRegistration job a f = true) : a.length ≠ 0 := by
  simp only [validateVMMRegistration, decide_eq_true_eq] at h
  exact h.2.1

def backendRegister (job : Job) (a : Args) (f : Fate) (st : Store) : Store × UInt64 × Bool :=
  if hvalid : validateVMMRegistration job a f then
    if st.regions.size ≥ job.maxSymmRegions then (st, 0, false)
    else if hfit : a.addr > 0xFFFFFFFFFFFFFFFF - a.length then (st, 0, false)
    else if hno : st.origRegions.overlaps a.addr a.length then (st, 0, false)
    else match f.mapLocalAlias with
      | none => (st, 0, false)
      | some aliasStart =>
        ({ st with
            regions := st.regions.insert aliasStart ⟨a.length, a.addr⟩
            origRegions := st.origRegions.add a.addr a.length
              (length_pos (length_ne_zero hvalid)) (fits_of_check hfit) (Bool.eq_false_iff.mpr hno)
            held := { st.held with aliases := st.held.aliases + {aliasStart} } },
          aliasStart, true)
  else (st, 0, false)

def backendUnregister (aliasStart : UInt64) (st : Store) : Store :=
  if aliasStart = 0 then st
  else match st.regions.find aliasStart with
    | none => st
    | some e =>
      { st with
        regions := st.regions.erase aliasStart
        origRegions := st.origRegions.remove e.2.origBase
        held := { st.held with aliases := st.held.aliases - {aliasStart} } }

/-! ### NIC resources -/

def registerMrs (regMr : ℕ → Option (UInt32 × UInt32)) :
    List ℕ → List (ℕ × UInt32 × UInt32) × Bool
  | [] => ([], true)
  | n :: rest =>
    match regMr n with
    | none => ([], false)
    | some keys =>
      let more := registerMrs regMr rest
      ((n, keys) :: more.1, more.2)

def GdaSymmRecord.mrIds (r : GdaSymmRecord) (aliasStart : UInt64) : Multiset (ℕ × UInt64) :=
  r.mrs.map fun m => (m.1, aliasStart)

def GdaSymmRecord.fdIds (r : GdaSymmRecord) (aliasStart : UInt64) : Multiset (ℕ × UInt64) :=
  if r.genHandle.isSome then r.mrIds aliasStart else 0

def GdaSymmRecord.handleIds (r : GdaSymmRecord) : Multiset UInt64 := r.genHandle.toList

def GdaSymmRecord.keys (r : GdaSymmRecord) (n : ℕ) : UInt32 × UInt32 :=
  (r.mrs.lookup n).getD (0, 0)

def acquireNicResources (aliasStart : UInt64) (r : GdaSymmRecord) (st : Store) : Store :=
  { st with held := { st.held with
      mrs := st.held.mrs + r.mrIds aliasStart
      fds := st.held.fds + r.fdIds aliasStart
      handles := st.held.handles + r.handleIds } }

def releaseNicResources (aliasStart : UInt64) (r : GdaSymmRecord) (st : Store) : Store :=
  { st with held := { st.held with
      mrs := st.held.mrs - r.mrIds aliasStart
      fds := st.held.fds - r.fdIds aliasStart
      handles := st.held.handles - r.handleIds } }

def publishNic (job : Job) (aliasStart : UInt64) (reg : Registration) (r : GdaSymmRecord)
    (st : Store) : Store :=
  { st with
    tables := { st.tables with nic := st.tables.nic.publish job.toSetup aliasStart reg }
    records := st.records.insert aliasStart r }

def gdaNicUnregister (job : Job) (key : UInt64) (st : Store) : Store :=
  match st.records.find key, st.tables.nic.gdaNicUnregister job.toSetup key with
  | some e, some nic =>
    let st := releaseNicResources key e.2 st
    { st with tables := { st.tables with nic := nic }, records := st.records.erase key }
  | _, _ => st

/-! ### IPC resources -/

def openPeers (self : ℕ) (openIpcHandle : ℕ → Option UInt64) :
    List ℕ → List (ℕ × UInt64) × Bool
  | [] => ([], true)
  | i :: rest =>
    if i = self then openPeers self openIpcHandle rest
    else match openIpcHandle i with
      | none => ([], false)
      | some base =>
        let more := openPeers self openIpcHandle rest
        ((i, base) :: more.1, more.2)

def exportHandle (addr : UInt64) (st : Store) : Store :=
  { st with held := { st.held with exported := st.held.exported + {addr} } }

def closeExportedHandle (addr : UInt64) (st : Store) : Store :=
  { st with held := { st.held with exported := st.held.exported - {addr} } }

def addOpened (peers : List (ℕ × UInt64)) (st : Store) : Store :=
  { st with held := { st.held with opened := st.held.opened + peers } }

def closeOpened (peers : List (ℕ × UInt64)) (st : Store) : Store :=
  { st with held := { st.held with opened := st.held.opened - peers } }

def publishIpc (aliasStart : UInt64) (reg : Registration) (r : IpcSymmRecord) (st : Store) :
    Store :=
  { st with
    tables := { st.tables with ipc := st.tables.ipc.publish aliasStart reg }
    ipcRecords := st.ipcRecords.insert aliasStart r }

def unregisterIpcSymmRegion (key : UInt64) (st : Store) : Store :=
  match st.ipcRecords.find key, st.tables.ipc.unregisterIpcSymmRegion key with
  | some e, some ipc =>
    let st := closeExportedHandle e.2.exportAddr (closeOpened e.2.peers st)
    { st with
      tables := { st.tables with ipc := ipc }, ipcRecords := st.ipcRecords.erase key }
  | _, _ => st

def bufferUnregisterSymmetric (job : Job) (addr : UInt64) (st : Store) : Status × Store :=
  if addr = 0 then (.error, st)
  else
    let st := if job.hasIpc then unregisterIpcSymmRegion addr st else st
    match st.records.find addr with
    | none => (.error, st)
    | some _ =>
      let st := gdaNicUnregister job addr st
      match st.regions.find addr with
      | none => (.error, st)
      | some _ => (.success, backendUnregister addr st)

/-! ### The call -/

inductive Point where
  | lengths (length : UInt64)
  | registered (aliasStart : UInt64) (ok : Bool)
  | mrs (aliasStart : UInt64) (r : GdaSymmRecord) (ok : Bool)
  | bases (aliasStart : UInt64) (r : GdaSymmRecord)
  | rkeys (aliasStart : UInt64) (r : GdaSymmRecord) (bases : ℕ → UInt64)
  | exported (aliasStart : UInt64) (reg : Registration) (ok : Bool)
  | handles (aliasStart : UInt64) (reg : Registration)
  | opened (aliasStart : UInt64) (reg : Registration) (peers : List (ℕ × UInt64)) (ok : Bool)
  | returned (status : Status)

inductive Exchange where
  | lengths | registered | mrs | bases | rkeys | exported | handles | opened
  deriving DecidableEq, Repr

def Point.exchange : Point → Option Exchange
  | .lengths _ => some .lengths
  | .registered _ _ => some .registered
  | .mrs _ _ _ => some .mrs
  | .bases _ _ => some .bases
  | .rkeys _ _ _ => some .rkeys
  | .exported _ _ _ => some .exported
  | .handles _ _ => some .handles
  | .opened _ _ _ _ => some .opened
  | .returned _ => none

def Point.succeeded : Point → Bool
  | .registered _ ok | .mrs _ _ ok | .exported _ _ ok | .opened _ _ _ ok => ok
  | _ => true

def Point.length : Point → UInt64
  | .lengths length => length
  | _ => 0

def Point.base : Point → UInt64
  | .bases aliasStart _ => aliasStart
  | _ => 0

def Point.rkey (n : ℕ) : Point → UInt32
  | .rkeys _ r _ => (r.keys n).1
  | _ => 0

def allPesAgree (job : Job) (points : ℕ → Point) (ok : Point → Bool) : Bool :=
  (List.range job.numPes).all fun pe => ok (points pe)

def passes (job : Job) (points : ℕ → Point) : Point → Bool
  | .lengths length => allPesAgree job points fun p => p.length = length
  | .registered _ _ | .mrs _ _ _ | .exported _ _ _ | .opened _ _ _ _ =>
    allPesAgree job points Point.succeeded
  | .bases _ _ | .rkeys _ _ _ | .handles _ _ | .returned _ => true

def unwindIpc (job : Job) (aliasStart : UInt64) (st : Store) : Store :=
  backendUnregister aliasStart (gdaNicUnregister job aliasStart st)

def undo (job : Job) (a : Args) : Point → Store → Store
  | .registered aliasStart ok, st => if ok then backendUnregister aliasStart st else st
  | .mrs aliasStart r _, st | .bases aliasStart r, st | .rkeys aliasStart r _, st =>
    backendUnregister aliasStart (releaseNicResources aliasStart r st)
  | .exported aliasStart _ ok, st =>
    unwindIpc job aliasStart (if ok then closeExportedHandle a.addr st else st)
  | .handles aliasStart _, st => unwindIpc job aliasStart (closeExportedHandle a.addr st)
  | .opened aliasStart _ peers ok, st =>
    unwindIpc job aliasStart
      (closeExportedHandle a.addr (if ok then closeOpened peers st else st))
  | .lengths _, st | .returned _, st => st

def registerNics (job : Job) (a : Args) (f : Fate) (aliasStart : UInt64) (st : Store) :
    Store × Point :=
  let genHandle := if f.dmabufSupported && f.retainHandle then some a.addr else none
  let mrs := registerMrs f.regMr (List.range job.numNics)
  let r : GdaSymmRecord := ⟨mrs.1, genHandle⟩
  (acquireNicResources aliasStart r st, .mrs aliasStart r mrs.2)

def publishKeys (job : Job) (a : Args) (f : Fate) (points : ℕ → Point) (aliasStart : UInt64)
    (r : GdaSymmRecord) (bases : ℕ → UInt64) (st : Store) : Store × Point :=
  let reg : Registration :=
    ⟨a.length, bases, fun pe n => (points pe).rkey n, fun n => (r.keys n).2, fun _ => 0⟩
  if st.tables.nic.slots.count ≥ job.symmCapacity then
    (undo job a (.rkeys aliasStart r bases) st, .returned .error)
  else
    let st := publishNic job aliasStart reg r st
    if job.hasIpc then
      (if f.getIpcHandle then exportHandle a.addr st else st,
        .exported aliasStart reg f.getIpcHandle)
    else (st, .returned .success)

def openHandles (job : Job) (f : Fate) (me : ℕ) (aliasStart : UInt64) (reg : Registration)
    (st : Store) : Store × Point :=
  let opened := openPeers (job.shmRank me) f.openIpcHandle (List.range (job.shmSize me))
  let peerBases i := if i = job.shmRank me then aliasStart else (opened.1.lookup i).getD 0
  let st := addOpened opened.1 st
  (if opened.2 then st else closeOpened opened.1 st,
    .opened aliasStart { reg with peerBases := peerBases } opened.1 opened.2)

def publishRegion (job : Job) (a : Args) (aliasStart : UInt64) (reg : Registration)
    (peers : List (ℕ × UInt64)) (st : Store) : Store × Point :=
  if st.tables.ipc.slots.count ≥ job.symmCapacity then
    (undo job a (.opened aliasStart reg peers true) st, .returned .error)
  else (publishIpc aliasStart reg ⟨peers, a.addr⟩ st, .returned .success)

def proceed (job : Job) (a : Args) (f : Fate) (me : ℕ) (points : ℕ → Point) :
    Point → Store → Store × Point
  | .lengths _, st =>
    let result := backendRegister job a f st
    (result.1, .registered result.2.1 result.2.2)
  | .registered aliasStart _, st => registerNics job a f aliasStart st
  | .mrs aliasStart r _, st => (st, .bases aliasStart r)
  | .bases aliasStart r, st => (st, .rkeys aliasStart r fun pe => (points pe).base)
  | .rkeys aliasStart r bases, st => publishKeys job a f points aliasStart r bases st
  | .exported aliasStart reg _, st => (st, .handles aliasStart reg)
  | .handles aliasStart reg, st => openHandles job f me aliasStart reg st
  | .opened aliasStart reg peers _, st => publishRegion job a aliasStart reg peers st
  | .returned status, st => (st, .returned status)

def resume (job : Job) (a : Args) (f : Fate) (me : ℕ) (points : ℕ → Point) (p : Point)
    (st : Store) : Store × Point :=
  if passes job points p then proceed job a f me points p st
  else (undo job a p st, .returned .error)

structure Member where
  store : Store
  point : Point
  taken : List Exchange

structure Call where
  args : ℕ → Args
  fates : ℕ → Fate

def start (call : Call) (before : ℕ → Store) (me : ℕ) : Member where
  store := before me
  point := if (call.args me).registeredAddrNull then .returned .error
    else .lengths (call.args me).length
  taken := []

def advance (job : Job) (call : Call) (x : Exchange) (sys : ℕ → Member) (me : ℕ) : Member :=
  let result := resume job (call.args me) (call.fates me) me (fun pe => (sys pe).point)
    (sys me).point (sys me).store
  ⟨result.1, result.2, (sys me).taken ++ [x]⟩

def round (job : Job) (call : Call) (sys : ℕ → Member) : Option (ℕ → Member) :=
  match (sys 0).point.exchange with
  | none => none
  | some x =>
    if ∀ pe < job.numPes, (sys pe).point.exchange = some x then some (advance job call x sys)
    else none

def run (job : Job) (call : Call) : ℕ → (ℕ → Member) → (ℕ → Member)
  | 0, sys => sys
  | rounds + 1, sys =>
    match round job call sys with
    | none => sys
    | some sys' => run job call rounds sys'

def bufferRegisterSymmetric (job : Job) (call : Call) (before : ℕ → Store) : ℕ → Member :=
  run job call 8 (start call before)

/-! ### Undoing local steps -/

def Store.withEntries (st : Store) (entries : Entries) : Store :=
  { st with tables := { st.tables with nic := { st.tables.nic with entries := entries } } }

structure Restored (job : Job) (before after : Store) : Prop where
  regions : after.regions = before.regions
  origRegions : after.origRegions = before.origRegions
  records : after.records = before.records
  ipcRecords : after.ipcRecords = before.ipcRecords
  slots : after.tables.nic.slots = before.tables.nic.slots
  rows : ∀ pe < job.numPes, ∀ n < job.numNics, ∀ i < before.tables.nic.slots.count,
    after.tables.nic.entries (job.slotIndex pe n i) =
      before.tables.nic.entries (job.slotIndex pe n i)
  ipc : after.tables.ipc = before.tables.ipc
  held : after.held = before.held

structure Based (job : Job) (before st : Store) (aliasStart : UInt64) : Prop where
  undo : ∀ entries, backendUnregister aliasStart (st.withEntries entries) =
    before.withEntries entries
  tables : st.tables = before.tables
  records : st.records = before.records
  ipcRecords : st.ipcRecords = before.ipcRecords
  regions : ∃ region, st.regions = before.regions.insert aliasStart region
  room : before.regions.size < job.maxSymmRegions
  fresh : ∀ e ∈ before.regions, e.1 ≠ aliasStart

def Fate.Sound (f : Fate) (before : Store) : Prop :=
  ∀ aliasStart, f.mapLocalAlias = some aliasStart →
    aliasStart ≠ 0 ∧ ∀ e ∈ before.regions, e.1 ≠ aliasStart

section Undo

variable {job : Job} {a : Args} {f : Fate} {before st : Store} {aliasStart : UInt64}

theorem restored_refl : Restored job before before :=
  ⟨rfl, rfl, rfl, rfl, rfl, fun _ _ _ _ _ _ => rfl, rfl, rfl⟩

theorem restored_withEntries {entries : Entries}
    (h : ∀ pe < job.numPes, ∀ n < job.numNics, ∀ i < before.tables.nic.slots.count,
      entries (job.slotIndex pe n i) = before.tables.nic.entries (job.slotIndex pe n i)) :
    Restored job before (before.withEntries entries) :=
  ⟨rfl, rfl, rfl, rfl, rfl, h, rfl, rfl⟩

theorem backendRegister_cases (job : Job) (a : Args) (hsound : f.Sound before) :
    backendRegister job a f before = (before, 0, false) ∨
      ∃ st aliasStart, backendRegister job a f before = (st, aliasStart, true) ∧
        Based job before st aliasStart := by
  unfold backendRegister
  split_ifs with hvalid hfull hover hoverlap
  · exact .inl rfl
  · exact .inl rfl
  · exact .inl rfl
  · cases hmap : f.mapLocalAlias with
    | none => exact .inl rfl
    | some aliasStart =>
      obtain ⟨hnull, hfresh⟩ := hsound aliasStart hmap
      refine .inr ⟨_, aliasStart, rfl, fun entries => ?_, rfl, rfl, rfl, ⟨_, rfl⟩, by omega, hfresh⟩
      have hfind : (before.regions.insert aliasStart ⟨a.length, a.addr⟩).find aliasStart =
          some (aliasStart, ⟨a.length, a.addr⟩) :=
        OrderedMap.find_some_iff.mpr ⟨OrderedMap.mem_insert.mpr (.inl rfl), rfl⟩
      simp only [backendUnregister, Store.withEntries, if_neg hnull, hfind,
        OrderedMap.erase_insert hfresh, RangeMap.remove_add, Multiset.add_sub_cancel_right]
  · exact .inl rfl

theorem release_acquire (r : GdaSymmRecord) :
    releaseNicResources aliasStart r (acquireNicResources aliasStart r st) = st := by
  simp only [releaseNicResources, acquireNicResources, Multiset.add_sub_cancel_right]

theorem close_export : closeExportedHandle a.addr (exportHandle a.addr st) = st := by
  simp only [closeExportedHandle, exportHandle, Multiset.add_sub_cancel_right]

theorem close_opened (peers : List (ℕ × UInt64)) : closeOpened peers (addOpened peers st) = st := by
  simp only [closeOpened, addOpened, Multiset.add_sub_cancel_right]

theorem unregister_published {reg : Registration} {r : GdaSymmRecord}
    (hslots : ∀ e ∈ st.tables.nic.slots.records, e.1 ≠ aliasStart)
    (hrecords : ∀ e ∈ st.records, e.1 ≠ aliasStart) : gdaNicUnregister job aliasStart
        (publishNic job aliasStart reg r (acquireNicResources aliasStart r st)) =
      st.withEntries (st.tables.nic.publish job.toSetup aliasStart reg).entries := by
  have hfind : (st.records.insert aliasStart r).find aliasStart = some (aliasStart, r) :=
    OrderedMap.find_some_iff.mpr ⟨OrderedMap.mem_insert.mpr (.inl rfl), rfl⟩
  simp only [gdaNicUnregister, publishNic, acquireNicResources, releaseNicResources, hfind,
    NicTable.unregister_publish hslots, OrderedMap.erase_insert hrecords, Store.withEntries,
    Multiset.add_sub_cancel_right]

end Undo

/-! ### The state of a PE between calls -/

structure Wf (job : Job) (st : Store) (live : Live) : Prop where
  shown : st.tables.Shown job.toSetup live
  regions : st.regions.SameKeys live
  records : st.records.SameKeys live
  ipcRecords : st.ipcRecords.SameKeys (exposed job.toSetup live)

structure Registered (job : Job) (before : Store) (aliasStart : UInt64) (reg : Registration)
    (after : Store) : Prop where
  tables : after.tables = before.tables.register job.toSetup aliasStart reg
  regions : ∃ region, after.regions = before.regions.insert aliasStart region
  records : ∃ r, after.records = before.records.insert aliasStart r
  ipcRecords : ∃ r, after.ipcRecords =
    if job.hasIpc then before.ipcRecords.insert aliasStart r else before.ipcRecords
  fresh : ∀ e ∈ before.regions, e.1 ≠ aliasStart
  room : before.regions.size < job.maxSymmRegions

theorem capacityOf_eq {max : ℕ} (hpos : 0 < max) (hmax : max < 2 ^ 31) : capacityOf max = max := by
  have hcast : Int.bmod max (2 ^ 32) = max := by
    rw [Int.bmod_def]
    omega
  unfold capacityOf
  rw [hcast]
  dsimp only
  split_ifs
  · omega
  · exact Int.toNat_natCast max

section Wf

variable {job : Job} {before after : Store} {live : Live} {aliasStart : UInt64}
  {reg : Registration}

theorem Wf.nic_count (h : Wf job before live) :
    before.tables.nic.slots.count = before.regions.size := by
  rw [← h.shown.nic.shows.exact.size_eq]
  exact (h.shown.nic.shows.keys.trans h.regions.symm).size_eq

theorem Wf.ipc_count (h : Wf job before live) (hipc : job.hasIpc = true) :
    before.tables.ipc.slots.count = before.regions.size := by
  have hshows : before.tables.ipc.Shown live := by
    simpa [exposed, hipc] using h.shown.ipc
  rw [← hshows.exact.size_eq]
  exact (hshows.keys.trans h.regions.symm).size_eq

theorem room_of_size (hmax : job.maxSymmRegions < 2 ^ 31) {size : ℕ}
    (h : size < job.maxSymmRegions) : size < job.symmCapacity := by
  rw [job.capacity_eq, capacityOf_eq (Nat.zero_lt_of_lt h) hmax]
  exact h

theorem Wf.nic_room (h : Wf job before live) (hmax : job.maxSymmRegions < 2 ^ 31)
    (hsize : before.regions.size < job.maxSymmRegions) :
    before.tables.nic.slots.count < job.symmCapacity :=
  h.nic_count ▸ room_of_size hmax hsize

theorem Wf.restored (h : Wf job before live) (hr : Restored job before after) :
    Wf job after live := by
  refine ⟨⟨?_, hr.ipc ▸ h.shown.ipc⟩, hr.regions ▸ h.regions, hr.records ▸ h.records,
    hr.ipcRecords ▸ h.ipcRecords⟩
  have hnic : after.tables.nic = ⟨before.tables.nic.slots, after.tables.nic.entries⟩ := by
    rw [← hr.slots]
  rw [hnic]
  exact h.shown.nic.entries hr.rows

theorem Wf.registered (h : Wf job before live) (hmax : job.maxSymmRegions < 2 ^ 31)
    (hr : Registered job before aliasStart reg after) :
    Wf job after (live.insert aliasStart reg) := by
  obtain ⟨region, hregions⟩ := hr.regions
  obtain ⟨r, hrecords⟩ := hr.records
  obtain ⟨ir, hipcRecords⟩ := hr.ipcRecords
  refine ⟨?_, ?_, ?_, ?_⟩
  · rw [hr.tables]
    exact h.shown.register (h.regions.symm.fresh hr.fresh) (h.nic_room hmax hr.room)
  all_goals grind [exposed, Wf, OrderedMap.SameKeys.insert]

theorem unregisterIpc_spec {st : Store} (key : UInt64)
    (h : st.ipcRecords.SameKeys st.tables.ipc.slots.records) :
    let st' := unregisterIpcSymmRegion key st
    st'.tables = { st.tables with
        ipc := (st.tables.ipc.unregisterIpcSymmRegion key).getD st.tables.ipc } ∧
      st'.regions = st.regions ∧ st'.records = st.records ∧
      st'.ipcRecords = st.ipcRecords.erase key := by
  unfold unregisterIpcSymmRegion IpcTable.unregisterIpcSymmRegion
  cases hfind : st.tables.ipc.slots.records.find key with
  | none =>
    rw [h.find_none hfind]
    refine ⟨rfl, rfl, rfl, ?_⟩
    exact (OrderedMap.erase_of_fresh (OrderedMap.find_none_iff.mp (h.find_none hfind))).symm
  | some e =>
    obtain ⟨r, hr⟩ := h.find_some hfind
    rw [hr]
    exact ⟨rfl, rfl, rfl, rfl⟩

theorem gdaNicUnregister_spec {st : Store} {key : UInt64} {e : UInt64 × GdaSymmRecord}
    {nic : NicTable} (hrec : st.records.find key = some e)
    (hnic : st.tables.nic.gdaNicUnregister job.toSetup key = some nic) :
    let st' := gdaNicUnregister job key st
    st'.tables = { st.tables with nic := nic } ∧ st'.regions = st.regions ∧
      st'.records = st.records.erase key ∧ st'.ipcRecords = st.ipcRecords := by
  unfold gdaNicUnregister
  rw [hrec, hnic]
  exact ⟨rfl, rfl, rfl, rfl⟩

theorem backendUnregister_spec {st : Store} {key : UInt64} {e : UInt64 × SymmRegion}
    (hnull : key ≠ 0) (hfind : st.regions.find key = some e) :
    let st' := backendUnregister key st
    st'.tables = st.tables ∧ st'.regions = st.regions.erase key ∧ st'.records = st.records ∧
      st'.ipcRecords = st.ipcRecords := by
  unfold backendUnregister
  rw [if_neg hnull, hfind]
  exact ⟨rfl, rfl, rfl, rfl⟩

theorem Wf.unregister_ipc {st : Store} (h : Wf job st live) (addr : UInt64) :
    ∃ st', (if job.hasIpc then unregisterIpcSymmRegion addr st else st) = st' ∧
      st'.tables.nic = st.tables.nic ∧ st'.regions = st.regions ∧ st'.records = st.records ∧
      st'.tables.ipc.Shown (exposed job.toSetup (live.erase addr)) ∧
      st'.ipcRecords.SameKeys (exposed job.toSetup (live.erase addr)) := by
  have hshown := h.shown.ipc
  have hkeys := h.ipcRecords
  unfold exposed at hshown hkeys ⊢
  split_ifs at hshown hkeys ⊢
  · obtain ⟨htables, hregions, hrecords, hipc⟩ :=
      unregisterIpc_spec addr (hkeys.trans (Slots.Shows.keys hshown).symm)
    refine ⟨_, rfl, by rw [htables], hregions, hrecords, ?_, ?_⟩
    · rw [htables]
      exact IpcTable.Shown.unregister hshown
    · rw [hipc]
      exact hkeys.erase
  · exact ⟨st, rfl, rfl, rfl, rfl, hshown, hkeys⟩

theorem Wf.unregister {st : Store} (h : Wf job st live) (addr : UInt64) :
    ∃ live', Wf job (bufferUnregisterSymmetric job addr st).2 live' := by
  by_cases hnull : addr = 0
  · exact ⟨live, by simpa [bufferUnregisterSymmetric, hnull] using h⟩
  simp only [bufferUnregisterSymmetric, if_neg hnull]
  obtain ⟨st₁, heq, hnic₁, hregions₁, hrecords₁, hipc₁, hkeys₁⟩ := h.unregister_ipc addr
  rw [heq]
  refine ⟨live.erase addr, ?_⟩
  cases hrec : st₁.records.find addr with
  | none =>
    have hfresh : ∀ e ∈ live, e.1 ≠ addr := by
      rw [hrecords₁] at hrec
      exact h.records.symm.fresh (OrderedMap.find_none_iff.mp hrec)
    refine ⟨⟨?_, hipc₁⟩, ?_, ?_, hkeys₁⟩
    · rw [OrderedMap.erase_of_fresh hfresh, hnic₁]
      exact h.shown.nic
    all_goals grind [Wf, OrderedMap.erase_of_fresh]
  | some e =>
    have hrec' := hrec
    rw [hrecords₁] at hrec'
    obtain ⟨slot, hslot⟩ := (h.shown.nic.shows.keys.trans h.records.symm).find_some hrec'
    obtain ⟨region, hregion⟩ := (h.regions.trans h.records.symm).find_some hrec'
    obtain ⟨nic, hnic⟩ : ∃ nic, st.tables.nic.gdaNicUnregister job.toSetup addr = some nic := by
      unfold NicTable.gdaNicUnregister
      rw [hslot]
      exact ⟨_, rfl⟩
    obtain ⟨htables₂, hregions₂, hrecords₂, hipc₂⟩ := gdaNicUnregister_spec hrec (hnic₁ ▸ hnic)
    have hfind : (gdaNicUnregister job addr st₁).regions.find addr = some (addr, region) := by
      rw [hregions₂, hregions₁, hregion]
    obtain ⟨htables₃, hregions₃, hrecords₃, hipc₃⟩ := backendUnregister_spec hnull hfind
    dsimp only
    rw [hfind]
    dsimp only
    refine ⟨⟨?_, ?_⟩, ?_, ?_, ?_⟩
    · rw [htables₃, htables₂]
      exact h.shown.nic.unregister hnic
    all_goals grind [Wf, OrderedMap.SameKeys.erase]

end Wf

/-! ### A PE during the call -/

def Published (job : Job) (before : Store) (aliasStart : UInt64) (reg : Registration)
    (st : Store) : Prop :=
  job.hasIpc = true ∧ ∃ s r, Based job before s aliasStart ∧
    st = publishNic job aliasStart reg r (acquireNicResources aliasStart r s)

structure Gathered (a : Args) (bases : ℕ → UInt64) (rkeys : ℕ → ℕ → UInt32)
    (reg : Registration) : Prop where
  length : reg.length = a.length
  bases : reg.bases = bases
  rkeys : reg.rkeys = rkeys

inductive During (job : Job) (a : Args) (before : Store) (me : ℕ) (bases : ℕ → UInt64)
    (rkeys : ℕ → ℕ → UInt32) : Point → Store → Prop where
  | lengths : During job a before me bases rkeys (.lengths a.length) before
  | refused : During job a before me bases rkeys (.registered 0 false) before
  | based {aliasStart : UInt64} {st : Store} (h : Based job before st aliasStart) :
      During job a before me bases rkeys (.registered aliasStart true) st
  | mrs {aliasStart : UInt64} {st : Store} (r : GdaSymmRecord) (ok : Bool)
      (h : Based job before st aliasStart) :
      During job a before me bases rkeys (.mrs aliasStart r ok)
        (acquireNicResources aliasStart r st)
  | bases {aliasStart : UInt64} {st : Store} (r : GdaSymmRecord)
      (h : Based job before st aliasStart) :
      During job a before me bases rkeys (.bases aliasStart r)
        (acquireNicResources aliasStart r st)
  | rkeys {st : Store} (r : GdaSymmRecord) (h : Based job before st (bases me)) :
      During job a before me bases rkeys (.rkeys (bases me) r bases)
        (acquireNicResources (bases me) r st)
  | notExported {st : Store} {reg : Registration} (h : Published job before (bases me) reg st)
      (hreg : Gathered a bases rkeys reg) :
      During job a before me bases rkeys (.exported (bases me) reg false) st
  | exported {st : Store} {reg : Registration} (h : Published job before (bases me) reg st)
      (hreg : Gathered a bases rkeys reg) :
      During job a before me bases rkeys (.exported (bases me) reg true) (exportHandle a.addr st)
  | handles {st : Store} {reg : Registration} (h : Published job before (bases me) reg st)
      (hreg : Gathered a bases rkeys reg) :
      During job a before me bases rkeys (.handles (bases me) reg) (exportHandle a.addr st)
  | notOpened {st : Store} {reg : Registration} (peers : List (ℕ × UInt64))
      (h : Published job before (bases me) reg st) (hreg : Gathered a bases rkeys reg) :
      During job a before me bases rkeys (.opened (bases me) reg peers false)
        (exportHandle a.addr st)
  | opened {st : Store} {reg : Registration} (peers : List (ℕ × UInt64))
      (h : Published job before (bases me) reg st) (hreg : Gathered a bases rkeys reg) :
      During job a before me bases rkeys (.opened (bases me) reg peers true)
        (addOpened peers (exportHandle a.addr st))
  | failed {st : Store} (h : Restored job before st) :
      During job a before me bases rkeys (.returned .error) st
  | succeeded {st : Store} (reg : Registration) (h : Registered job before (bases me) reg st)
      (hreg : Gathered a bases rkeys reg) :
      During job a before me bases rkeys (.returned .success) st

def nextExchange (job : Job) : Exchange → Option Exchange
  | .lengths => some .registered
  | .registered => some .mrs
  | .mrs => some .bases
  | .bases => some .rkeys
  | .rkeys => if job.hasIpc then some .exported else none
  | .exported => some .handles
  | .handles => some .opened
  | .opened => none

section Local

variable {job : Job} {a : Args} {f : Fate} {before st : Store} {live : Live} {me : ℕ}
  {bases : ℕ → UInt64} {rkeys : ℕ → ℕ → UInt32} {p : Point} {points : ℕ → Point}

theorem Based.restored {aliasStart : UInt64} (h : Based job before st aliasStart) :
    Restored job before (backendUnregister aliasStart st) := by
  have hundo := h.undo before.tables.nic.entries
  grind [backendUnregister, Store.withEntries, Based, Restored]

theorem unwind_published (hwf : Wf job before live) (hmax : job.maxSymmRegions < 2 ^ 31)
    {aliasStart : UInt64} {reg : Registration} (h : Published job before aliasStart reg st) :
    Restored job before (unwindIpc job aliasStart st) := by
  obtain ⟨-, s, r, hbased, rfl⟩ := h
  have hslots : ∀ e ∈ s.tables.nic.slots.records, e.1 ≠ aliasStart := by
    rw [hbased.tables]
    exact (hwf.shown.nic.shows.keys.trans hwf.regions.symm).fresh hbased.fresh
  have hrecords : ∀ e ∈ s.records, e.1 ≠ aliasStart := by
    rw [hbased.records]
    exact (hwf.records.trans hwf.regions.symm).fresh hbased.fresh
  grind [Based, unwindIpc, restored_withEntries, unregister_published, Wf.nic_room,
    NicTable.publish_old]

theorem During.undone (hwf : Wf job before live) (hmax : job.maxSymmRegions < 2 ^ 31)
    (h : During job a before me bases rkeys p st) (hin : p.exchange ≠ none) :
    Restored job before (undo job a p st) := by
  cases h with
  | lengths | refused => exact restored_refl
  | based h => exact h.restored
  | mrs r ok h | bases r h | rkeys r h =>
    simp only [undo, release_acquire]
    exact h.restored
  | notExported h hreg => exact unwind_published hwf hmax h
  | exported h hreg =>
    simp only [undo, if_true, close_export]
    exact unwind_published hwf hmax h
  | handles h hreg =>
    simp only [undo, close_export]
    exact unwind_published hwf hmax h
  | notOpened peers h hreg =>
    simp only [undo, Bool.false_eq_true, if_false, close_export]
    exact unwind_published hwf hmax h
  | opened peers h hreg =>
    simp only [undo, if_true, close_opened, close_export]
    exact unwind_published hwf hmax h
  | failed | succeeded => exact absurd rfl hin

theorem publishRegion_eq {aliasStart : UInt64} {reg : Registration} {peers : List (ℕ × UInt64)}
    (hroom : st.tables.ipc.slots.count < job.symmCapacity) :
    publishRegion job a aliasStart reg peers st =
      (publishIpc aliasStart reg ⟨peers, a.addr⟩ st, .returned .success) :=
  if_neg (Nat.not_le.mpr hroom)

theorem Based.registered {aliasStart : UInt64} (h : Based job before st aliasStart)
    (hipc : job.hasIpc = false) (reg : Registration) (r : GdaSymmRecord) :
    Registered job before aliasStart reg
      (publishNic job aliasStart reg r (acquireNicResources aliasStart r st)) where
  tables := by simp [publishNic, acquireNicResources, Tables.register, hipc, h.tables]
  regions := h.regions
  records := ⟨r, congrArg (fun m => OrderedMap.insert m aliasStart r) h.records⟩
  ipcRecords := ⟨⟨[], 0⟩, by simp [publishNic, acquireNicResources, hipc, h.ipcRecords]⟩
  fresh := h.fresh
  room := h.room

section

variable {aliasStart : UInt64} {reg : Registration} (h : Published job before aliasStart reg st)
include h

theorem Published.registered (peers : List (ℕ × UInt64)) (addr : UInt64) :
    Registered job before aliasStart reg
      (publishIpc aliasStart reg ⟨peers, addr⟩ (addOpened peers (exportHandle addr st))) := by
  obtain ⟨hipc, s, r, hbased, rfl⟩ := h
  refine ⟨?_, hbased.regions, ⟨r, ?_⟩, ⟨⟨peers, addr⟩, ?_⟩, hbased.fresh, hbased.room⟩
  all_goals grind [publishNic, exportHandle, Based, acquireNicResources, publishIpc,
    Tables.register, addOpened]

theorem Published.ipc_room (hwf : Wf job before live)
    (hmax : job.maxSymmRegions < 2 ^ 31) : st.tables.ipc.slots.count < job.symmCapacity := by
  obtain ⟨hipc, s, r, hbased, rfl⟩ := h
  change s.tables.ipc.slots.count < job.symmCapacity
  rw [hbased.tables, hwf.ipc_count hipc]
  exact room_of_size hmax hbased.room

end

theorem During.proceeds (points : ℕ → Point) (hwf : Wf job before live)
    (hmax : job.maxSymmRegions < 2 ^ 31) (hsound : f.Sound before)
    (h : During job a before me bases rkeys p st) {x : Exchange}
    (hx : p.exchange = some x) (hok : p.succeeded = true) (hme : points me = p) :
    During job a before me (if x = .bases then fun pe => (points pe).base else bases)
        (if x = .rkeys then fun pe n => (points pe).rkey n else rkeys)
        (proceed job a f me points p st).2 (proceed job a f me points p st).1 ∧
      (proceed job a f me points p st).2.exchange = nextExchange job x ∧
      (nextExchange job x = none → (proceed job a f me points p st).2 = .returned .success) := by
  cases h with
  | lengths =>
    grind [During, proceed, nextExchange, Point.exchange, backendRegister_cases]
  | refused | notExported | notOpened => cases hok
  | based h =>
    cases hx
    exact ⟨.mrs _ _ h, rfl, fun hnone => by cases hnone⟩
  | mrs r ok h =>
    cases hx
    exact ⟨.bases _ h, rfl, fun hnone => by cases hnone⟩
  | @bases al s r h =>
    grind [During, proceed, nextExchange, Point.base, Point.exchange]
  | @rkeys s r h =>
    cases hx
    have hroom : ¬ (acquireNicResources (bases me) r s).tables.nic.slots.count ≥
        job.symmCapacity := by
      change ¬ s.tables.nic.slots.count ≥ job.symmCapacity
      rw [h.tables]
      exact Nat.not_le.mpr (hwf.nic_room hmax h.room)
    simp only [proceed, publishKeys, if_neg hroom, nextExchange, reduceCtorEq, if_true, if_false]
    cases hipc : job.hasIpc with
    | true =>
      refine ⟨?_, rfl, fun hnone => by cases hnone⟩
      cases f.getIpcHandle with
      | true => exact .exported ⟨hipc, s, r, h, rfl⟩ ⟨rfl, rfl, rfl⟩
      | false => exact .notExported ⟨hipc, s, r, h, rfl⟩ ⟨rfl, rfl, rfl⟩
    | false =>
      exact ⟨.succeeded _ (h.registered hipc _ r) ⟨rfl, rfl, rfl⟩, rfl, fun _ => rfl⟩
  | exported h hreg =>
    cases hx
    exact ⟨.handles h hreg, rfl, fun hnone => by cases hnone⟩
  | handles h hreg =>
    cases hx
    refine ⟨?_, rfl, fun hnone => by cases hnone⟩
    -- the entries do not depend on where the peers are mapped
    obtain ⟨hipc, s, r, hbased, rfl⟩ := h
    simp only [proceed, openHandles]
    cases (openPeers (job.shmRank me) f.openIpcHandle (List.range (job.shmSize me))).2 with
    | true =>
      exact .opened _ ⟨hipc, s, r, hbased, rfl⟩ ⟨hreg.length, hreg.bases, hreg.rkeys⟩
    | false =>
      simp only [Bool.false_eq_true, if_false, close_opened]
      exact .notOpened _ ⟨hipc, s, r, hbased, rfl⟩ ⟨hreg.length, hreg.bases, hreg.rkeys⟩
  | opened peers h hreg =>
    cases hx
    have hroom := h.ipc_room hwf hmax
    simp only [proceed]
    rw [publishRegion_eq (by exact hroom)]
    exact ⟨.succeeded _ (h.registered peers a.addr) hreg, rfl, fun _ => rfl⟩
  | failed | succeeded => cases hx

theorem allPesAgree_iff {ok : Point → Bool} :
    allPesAgree job points ok = true ↔ ∀ pe < job.numPes, ok (points pe) = true := by
  simp [allPesAgree]

theorem passes_of_passes (points : ℕ → Point) {pe : ℕ} (hpe : pe < job.numPes)
    (hx : (points pe).exchange = (points me).exchange)
    (h : passes job points (points me) = true) : passes job points (points pe) = true := by
  cases hp : points pe with
  | lengths length =>
    cases hm : points me with
    | lengths length' =>
      grind [passes, Point.length, allPesAgree_iff]
    | _ =>
      rw [hp, hm] at hx
      cases hx
  | bases _ _ => rfl
  | rkeys _ _ _ => rfl
  | handles _ _ => rfl
  | returned _ => rfl
  | registered _ _ | mrs _ _ _ | exported _ _ _ | opened _ _ _ _ =>
    cases hm : points me with
    | registered _ _ | mrs _ _ _ | exported _ _ _ | opened _ _ _ _ =>
      rw [hm] at h
      exact h
    | _ =>
      rw [hp, hm] at hx
      cases hx

theorem succeeded_of_passes (points : ℕ → Point) (hme : me < job.numPes)
    (h : passes job points (points me) = true) : (points me).succeeded = true := by
  cases hm : points me with
  | registered _ _ | mrs _ _ _ | exported _ _ _ | opened _ _ _ _ =>
    rw [hm, passes, allPesAgree_iff] at h
    rw [← hm]
    exact h me hme
  | _ => rfl

end Local

/-! ### All PEs -/

section System

variable (job : Job) (call : Call) (before : ℕ → Store)

def OneLength : Prop := ∀ pe < job.numPes, (call.args pe).length = (call.args 0).length

def AllDuring (sys : ℕ → Member) : Prop :=
  ∃ bases rkeys, ∀ pe < job.numPes,
    During job (call.args pe) (before pe) pe bases rkeys (sys pe).point (sys pe).store

structure AllAt (x : Exchange) (sys : ℕ → Member) : Prop where
  inExchange : ∀ pe < job.numPes, (sys pe).point.exchange = some x
  during : AllDuring job call before sys
  oneLength : x ≠ .lengths → OneLength job call

structure AllReturned (status : Status) (sys : ℕ → Member) : Prop where
  returned : ∀ pe < job.numPes, (sys pe).point = .returned status
  during : AllDuring job call before sys
  oneLength : status = .success → OneLength job call

variable {job call before} {sys : ℕ → Member} {live : ℕ → Live} {x : Exchange}

theorem round_eq (hpos : 0 < job.numPes) (h : AllAt job call before x sys) :
    round job call sys = some (advance job call x sys) := by
  unfold round
  rw [h.inExchange 0 hpos]
  dsimp only
  rw [if_pos h.inExchange]

theorem During.length_eq {a : Args} {st : Store} {me : ℕ} {bases : ℕ → UInt64}
    {rkeys : ℕ → ℕ → UInt32} {before : Store} {p : Point}
    (h : During job a before me bases rkeys p st) (hx : p.exchange = some .lengths) :
    p = .lengths a.length := by
  cases h with
  | lengths => rfl
  | _ => cases hx

theorem oneLength_of_passes (hpos : 0 < job.numPes) (h : AllAt job call before .lengths sys)
    (hpass : passes job (fun pe => (sys pe).point) (sys 0).point = true) : OneLength job call := by
  obtain ⟨bases, rkeys, hduring⟩ := h.during
  grind [AllAt, passes, OneLength, Point.length, allPesAgree_iff, During.length_eq]

variable (hwf : ∀ pe < job.numPes, Wf job (before pe) (live pe))
  (hmax : job.maxSymmRegions < 2 ^ 31)
  (hsound : ∀ pe < job.numPes, (call.fates pe).Sound (before pe))

include hwf hmax hsound

theorem round_all (hpos : 0 < job.numPes) (h : AllAt job call before x sys) :
    ∃ sys', round job call sys = some sys' ∧ (∀ pe, (sys' pe).taken = (sys pe).taken ++ [x]) ∧
      ((∃ status, AllReturned job call before status sys') ∨
        ∃ x', nextExchange job x = some x' ∧ AllAt job call before x' sys') := by
  refine ⟨_, round_eq hpos h, fun _ => rfl, ?_⟩
  obtain ⟨bases, rkeys, hduring⟩ := h.during
  have hin := h.inExchange
  cases hpass : passes job (fun pe => (sys pe).point) (sys 0).point with
  | false =>
    left
    have hfail : ∀ pe < job.numPes,
        passes job (fun pe => (sys pe).point) (sys pe).point = false := by
      intro pe hpe
      by_contra hyes
      rw [Bool.not_eq_false] at hyes
      have := passes_of_passes (fun pe => (sys pe).point) hpos
        ((hin 0 hpos).trans (hin pe hpe).symm) hyes
      rw [hpass] at this
      cases this
    refine ⟨.error, fun pe hpe => ?_, ⟨bases, rkeys, fun pe hpe => ?_⟩, fun hno => by cases hno⟩
    all_goals grind [During, advance, resume, During.undone]
  | true =>
    have hall : ∀ pe < job.numPes,
        passes job (fun pe => (sys pe).point) (sys pe).point = true := fun pe hpe =>
      passes_of_passes (fun pe => (sys pe).point) hpe ((hin pe hpe).trans (hin 0 hpos).symm) hpass
    have hproceed := fun pe hpe =>
      (hduring pe hpe).proceeds (fun pe => (sys pe).point)
        (hwf pe hpe) hmax (hsound pe hpe) (hin pe hpe)
        (succeeded_of_passes (fun pe => (sys pe).point) hpe (hall pe hpe)) rfl
    have hlength : OneLength job call := by
      grind [AllAt, oneLength_of_passes]
    have hnext : AllDuring job call before (advance job call x sys) := by
      refine ⟨if x = .bases then fun pe => (sys pe).point.base else bases,
        if x = .rkeys then fun pe n => (sys pe).point.rkey n else rkeys, fun pe hpe => ?_⟩
      simp only [advance, resume, hall pe hpe, if_true]
      exact (hproceed pe hpe).1
    cases hx : nextExchange job x with
    | none =>
      refine .inl ⟨.success, fun pe hpe => ?_, hnext, fun _ => hlength⟩
      simp only [advance, resume, hall pe hpe, if_true]
      exact (hproceed pe hpe).2.2 hx
    | some x' =>
      grind [AllAt, advance, resume]

def Exchange.left : Exchange → ℕ
  | .lengths => 8
  | .registered => 7
  | .mrs => 6
  | .bases => 5
  | .rkeys => 4
  | .exported => 3
  | .handles => 2
  | .opened => 1

omit hwf hmax hsound in
theorem left_next {x' : Exchange} (h : nextExchange job x = some x') : x'.left < x.left := by
  cases x with
  | rkeys =>
    unfold nextExchange at h
    split_ifs at h
    cases h
    decide
  | opened => cases h
  | _ =>
    cases h
    decide

omit hwf hmax hsound in
theorem run_returned {status : Status} (hpos : 0 < job.numPes)
    (h : AllReturned job call before status sys) (rounds : ℕ) : run job call rounds sys = sys := by
  cases rounds with
  | zero => rfl
  | succ rounds =>
    have hround : round job call sys = none := by
      simp [round, h.returned 0 hpos, Point.exchange]
    simp [run, hround]

theorem run_all (hpos : 0 < job.numPes) (rounds : ℕ) (hleft : x.left ≤ rounds)
    (h : AllAt job call before x sys) (htaken : ∀ pe, (sys pe).taken = (sys 0).taken) :
    (∃ status, AllReturned job call before status (run job call rounds sys)) ∧
      ∀ pe, (run job call rounds sys pe).taken = (run job call rounds sys 0).taken := by
  induction rounds generalizing x sys with
  | zero =>
    cases x <;> cases hleft
  | succ rounds ih =>
    obtain ⟨sys', hround, htaken', hdone | ⟨x', hx', hnext⟩⟩ := round_all hwf hmax hsound hpos h
    · obtain ⟨status, hdone⟩ := hdone
      simp only [run, hround, run_returned hpos hdone]
      refine ⟨⟨status, hdone⟩, fun pe => ?_⟩
      rw [htaken', htaken', htaken pe]
    · simp only [run, hround]
      have := left_next hx'
      refine ih (by omega) hnext (fun pe => ?_)
      rw [htaken', htaken', htaken pe]

end System

structure AllOrNothing (job : Job) (before : ℕ → Store) (after : ℕ → Member) : Prop where
  outcome : ∃ status, ∀ pe < job.numPes, (after pe).point = .returned status
  exchanges : ∀ pe < job.numPes, ∀ pe' < job.numPes, (after pe).taken = (after pe').taken
  restored : ∀ pe < job.numPes, (after pe).point = .returned .error →
    Restored job (before pe) (after pe).store

section Calls

variable {job : Job} {call : Call} {before : ℕ → Store} {live : ℕ → Live}

theorem call_left {pe : ℕ} (hpe : pe < job.numPes)
    (hnull : (call.args pe).registeredAddrNull = true) :
    bufferRegisterSymmetric job call before = start call before := by
  have hround : round job call (start call before) = none := by
    grind [round, start, Point.exchange]
  simp [bufferRegisterSymmetric, run, hround]

theorem start_all (hnone : ∀ pe < job.numPes, (call.args pe).registeredAddrNull = false) :
    AllAt job call before .lengths (start call before) := by
  refine ⟨fun pe hpe => ?_, ⟨fun _ => 0, fun _ _ => 0, fun pe hpe => ?_⟩, fun hne => absurd rfl hne⟩
  all_goals grind [During, start, Point.exchange]

theorem call_entered (hwf : ∀ pe < job.numPes, Wf job (before pe) (live pe))
    (hmax : job.maxSymmRegions < 2 ^ 31)
    (hsound : ∀ pe < job.numPes, (call.fates pe).Sound (before pe)) (hpos : 0 < job.numPes)
    (hnone : ∀ pe < job.numPes, (call.args pe).registeredAddrNull = false) :
    (∃ status, AllReturned job call before status (bufferRegisterSymmetric job call before)) ∧
      ∀ pe, (bufferRegisterSymmetric job call before pe).taken =
        (bufferRegisterSymmetric job call before 0).taken :=
  run_all (x := .lengths) hwf hmax hsound hpos 8 (Nat.le_refl 8) (start_all hnone) (fun _ => rfl)

theorem During.ended {a : Args} {before st : Store} {me : ℕ} {bases : ℕ → UInt64}
    {rkeys : ℕ → ℕ → UInt32} {status : Status}
    (h : During job a before me bases rkeys (.returned status) st) :
    (status = .error ∧ Restored job before st) ∨
      (status = .success ∧ ∃ reg, Registered job before (bases me) reg st ∧
        Gathered a bases rkeys reg) := by
  grind [During]

theorem AllReturned.ended {status : Status} {sys : ℕ → Member}
    (h : AllReturned job call before status sys) :
    ∃ bases rkeys, ∀ pe < job.numPes, (status = .error ∧ Restored job (before pe) (sys pe).store) ∨
      (status = .success ∧ ∃ reg, Registered job (before pe) (bases pe) reg (sys pe).store ∧
        Gathered (call.args pe) bases rkeys reg) := by
  obtain ⟨bases, rkeys, hduring⟩ := h.during
  refine ⟨bases, rkeys, fun pe hpe => ?_⟩
  have hpoint := hduring pe hpe
  rw [h.returned pe hpe] at hpoint
  exact hpoint.ended

end Calls

def Store.initial (entries : Entries) (regions : ℕ → IpcSymmRegion) (held : Held) : Store where
  regions := .empty
  origRegions := .empty
  tables := ⟨⟨.empty, entries⟩, ⟨.empty, regions⟩⟩
  records := .empty
  ipcRecords := .empty
  held := held

inductive Reachable (job : Job) : (ℕ → Store) → Prop where
  | initial (entries : Entries) (regions : ℕ → IpcSymmRegion) (held : ℕ → Held) :
      Reachable job fun pe => .initial entries regions (held pe)
  | register {before : ℕ → Store} (call : Call)
      (hsound : ∀ pe < job.numPes, (call.fates pe).Sound (before pe))
      (hreturned : ∀ pe < job.numPes, ∃ status,
        (bufferRegisterSymmetric job call before pe).point = .returned status) :
      Reachable job before → Reachable job fun pe => (bufferRegisterSymmetric job call before pe).store
  | unregister {before : ℕ → Store} (me : ℕ) (addr : UInt64) :
      Reachable job before →
        Reachable job (Function.update before me (bufferUnregisterSymmetric job addr (before me)).2)

section Reachable

variable {job : Job} {call : Call} {before : ℕ → Store}

theorem register_wf (hmax : job.maxSymmRegions < 2 ^ 31) {live : ℕ → Live}
    (hwf : ∀ pe < job.numPes, Wf job (before pe) (live pe))
    (hsound : ∀ pe < job.numPes, (call.fates pe).Sound (before pe)) {pe : ℕ}
    (hpe : pe < job.numPes) :
    ∃ live, Wf job (bufferRegisterSymmetric job call before pe).store live := by
  by_cases hleft : ∃ pe < job.numPes, (call.args pe).registeredAddrNull = true
  · obtain ⟨pe', hpe', hnull⟩ := hleft
    rw [call_left hpe' hnull]
    exact ⟨live pe, hwf pe hpe⟩
  · have hnone : ∀ pe < job.numPes, (call.args pe).registeredAddrNull = false := by
      simpa using hleft
    obtain ⟨⟨status, hreturned⟩, -⟩ := call_entered hwf hmax hsound (Nat.zero_lt_of_lt hpe) hnone
    obtain ⟨bases, rkeys, hended⟩ := hreturned.ended
    rcases hended pe hpe with ⟨-, hrestored⟩ | ⟨-, reg, hregistered, -⟩
    · exact ⟨live pe, (hwf pe hpe).restored hrestored⟩
    · exact ⟨_, (hwf pe hpe).registered hmax hregistered⟩

theorem initial_wf (entries : Entries) (regions : ℕ → IpcSymmRegion) (held : Held) :
    Wf job (.initial entries regions held) .empty := by
  have hexposed : exposed job.toSetup .empty = .empty := by
    unfold exposed
    split_ifs <;> rfl
  have hkeys : ∀ {ν : Type}, (OrderedMap.empty : OrderedMap UInt64 ν).SameKeys
      (.empty : Live) := fun a => by simp
  refine ⟨⟨⟨.empty, Nat.zero_le _⟩, ?_⟩, hkeys, hkeys, ?_⟩
  · rw [hexposed]
    exact Slots.Shows.empty
  · rw [hexposed]
    exact hkeys

theorem reachable_wf (hmax : job.maxSymmRegions < 2 ^ 31) (h : Reachable job before) :
    ∃ live : ℕ → Live, ∀ pe < job.numPes, Wf job (before pe) (live pe) := by
  suffices hall : ∀ pe, ∃ live, pe < job.numPes → Wf job (before pe) live from
    Classical.skolem.mp hall
  induction h with
  | initial entries regions held =>
    exact fun pe => ⟨.empty, fun _ => initial_wf entries regions (held pe)⟩
  | @register before call hsound _ _ ih =>
    intro pe
    obtain ⟨live, hwf⟩ := Classical.skolem.mp ih
    by_cases hpe : pe < job.numPes
    · obtain ⟨live', hwf'⟩ := register_wf hmax hwf hsound hpe
      exact ⟨live', fun _ => hwf'⟩
    · exact ⟨.empty, fun hin => absurd hin hpe⟩
  | @unregister before me addr _ ih =>
    intro pe
    obtain ⟨live, hwf⟩ := ih pe
    by_cases hpe : pe < job.numPes
    · grind [Wf.unregister]
    · exact ⟨.empty, fun hin => absurd hin hpe⟩

end Reachable

def twoPesJob : Job where
  toSetup := twoPes
  maxSymmRegions := 4
  granularity := 0x100
  shmSize _ := 2
  shmRank pe := pe
  capacity_eq := by decide

def nothingHeld : Held := ⟨0, 0, 0, 0, 0, 0⟩

def idle : ℕ → Store := fun _ => .initial blankEntries blankRegions nothingHeld

def noAliasOnSecond (null : Bool) : Call where
  args pe := ⟨0x9000, 0x100, null && pe = 0⟩
  fates pe := ⟨true, if pe = 0 then some 0x2000 else none, true, true, fun _ => some (5, 5), true,
    fun _ => some 0x8000⟩

end SymmetricRegistration
