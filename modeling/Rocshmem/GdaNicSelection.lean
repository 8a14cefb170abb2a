import Rocshmem.LazyTables

/-! The choice of a NIC for a GPU: a forced topology file, the OAM pairing, or the distance in the
PCIe tree with load balancing. The first query of the process fills the table of all GPUs. -/
namespace GdaNicSelection

open LazyTables
open Function (update)

inductive PCIeNode where
  | mk (address : String) (isVirtualP2pLink : Bool) (p2pNode : Option PCIeNode)
      (children : List PCIeNode)

namespace PCIeNode

def lcaOfChild (lca : Option String × List String) (lcaFound1 : Option String)
    (loop : Option String → Option String × Bool × List String) :
    Option String × Bool × List String :=
  match lca.1, lcaFound1 with
  | some _, some _ => (lcaFound1, true, lca.2)
  | some _, none =>
    let (found, second, candidates) := loop lca.1
    (found, second, lca.2 ++ candidates)
  | none, _ =>
    let (found, second, candidates) := loop lcaFound1
    (found, second, lca.2 ++ candidates)

mutual

def getLcaBetweenNodesRecursive (node1Address node2Address : String) :
    PCIeNode → Option String × List String
  | mk address _ _ children =>
    if address = node1Address ∨ address = node2Address then (some address, [])
    else
      match lcaOfChildren node1Address node2Address children none with
      | (some _, true, candidates) => (some address, candidates ++ [address])
      | (lcaFound1, _, candidates) => (lcaFound1, candidates)

def lcaOfChildren (node1Address node2Address : String) :
    List PCIeNode → Option String → Option String × Bool × List String
  | [], lcaFound1 => (lcaFound1, false, [])
  | mk _ true (some p2pNode) [] :: children, lcaFound1 =>
    lcaOfChild (getLcaBetweenNodesRecursive node1Address node2Address p2pNode) lcaFound1
      (lcaOfChildren node1Address node2Address children)
  | child :: children, lcaFound1 =>
    lcaOfChild (getLcaBetweenNodesRecursive node1Address node2Address child) lcaFound1
      (lcaOfChildren node1Address node2Address children)

end

mutual

def getLcaDepth (targetBusID : String) (depth : ℤ) : PCIeNode → ℤ
  | mk address _ _ children =>
    if targetBusID = address then depth else depthInChildren targetBusID (depth + 1) children

def depthInChildren (targetBusID : String) (depth : ℤ) : List PCIeNode → ℤ
  | [] => -1
  | child :: children =>
    let distance := getLcaDepth targetBusID depth child
    if distance ≠ -1 then distance else depthInChildren targetBusID depth children

end

mutual

def getPCIeNode (target : String) : PCIeNode → Option String
  | mk address _ _ children =>
    if address = target then some address else nodeInChildren target children

def nodeInChildren (target : String) : List PCIeNode → Option String
  | [] => none
  | child :: children =>
    match getPCIeNode target child with
    | some found => some found
    | none => nodeInChildren target children

end

def getLcaBetweenNodes (root : PCIeNode) (node1Address node2Address : String) : Option String :=
  if node1Address = node2Address then root.getPCIeNode node1Address
  else
    ((root.getLcaBetweenNodesRecursive node1Address node2Address).2.foldl
      (fun (maxDepth, lca) tmplca =>
        let depth := root.getLcaDepth tmplca 0
        if maxDepth < depth then (depth, some tmplca) else (maxDepth, lca))
      ((-1 : ℤ), none)).2

end PCIeNode

section Addresses

def isHexDigit (c : Char) : Bool := c.isDigit || ('a' ≤ c && c ≤ 'f') || ('A' ≤ c && c ≤ 'F')

def hexDigit (c : Char) : ℤ :=
  if c.isDigit then c.toNat - '0'.toNat
  else if 'a' ≤ c then c.toNat - 'a'.toNat + 10
  else c.toNat - 'A'.toNat + 10

def readHex (cs : List Char) : Option (ℤ × List Char) :=
  let cs := cs.dropWhile Char.isWhitespace
  let (negative, cs) :=
    match cs with
    | '-' :: cs => (true, cs)
    | '+' :: cs => (false, cs)
    | cs => (false, cs)
  let cs :=
    match cs with
    | '0' :: 'x' :: cs | '0' :: 'X' :: cs => cs
    | cs => cs
  let digits := cs.takeWhile isHexDigit
  let magnitude := digits.foldl (fun n c => 16 * n + hexDigit c) 0
  let n := if negative then -magnitude else magnitude
  if digits ≠ [] ∧ -2 ^ 31 ≤ n ∧ n < 2 ^ 31 then some (n, cs.dropWhile isHexDigit) else none

def readDelimiter (cs : List Char) : Option (List Char) :=
  match cs.dropWhile Char.isWhitespace with
  | [] => none
  | _ :: cs => some cs

def extractBusNumber (pcieAddress : String) : ℤ :=
  let bus := do
    let (_, cs) ← readHex pcieAddress.toList
    let cs ← readDelimiter cs
    let (bus, cs) ← readHex cs
    let cs ← readDelimiter cs
    let (_, cs) ← readHex cs
    let cs ← readDelimiter cs
    let _ ← readHex cs
    return bus
  bus.getD (-1)

def getBusIdDistance (pcieAddress1 pcieAddress2 : String) : ℤ :=
  let bus1 := extractBusNumber pcieAddress1
  let bus2 := extractBusNumber pcieAddress2
  if bus1 < 0 ∨ bus2 < 0 then -1 else (bus1 - bus2).natAbs

end Addresses

def insert (x : ℤ) : List ℤ → List ℤ
  | [] => [x]
  | y :: ys => if x < y then x :: y :: ys else if x = y then y :: ys else y :: insert x ys

def intMax : ℤ := 2 ^ 31 - 1

section Nearest

structure Nearest where
  maxDepth : ℤ
  minDistance : ℤ
  indices : List ℤ

def Nearest.consider (root : PCIeNode) (targetBusId : String) (isoam : Bool) (s : Nearest)
    (candidate : String × ℕ) : Nearest :=
  if candidate.1 = "" then s
  else
    match root.getLcaBetweenNodes targetBusId candidate.1 with
    | none => s
    | some lca =>
      let depth := root.getLcaDepth lca 0
      let currDistance := getBusIdDistance targetBusId candidate.1
      if isoam then
        { s with indices := insert (if 5 ≤ depth then candidate.2 else -1) s.indices }
      else if s.maxDepth < depth ∨
          (depth = s.maxDepth ∧ 0 ≤ depth ∧ currDistance < s.minDistance) then
        ⟨depth, currDistance, [(candidate.2 : ℤ)]⟩
      else if depth = s.maxDepth ∧ 0 ≤ depth ∧ currDistance = s.minDistance then
        { s with indices := insert candidate.2 s.indices }
      else s

def getNearestDevicesInTree (root : PCIeNode) (targetBusId : String)
    (candidateBusIdList : List String) (isoam : Bool) : List ℤ :=
  (candidateBusIdList.zipIdx.foldl (Nearest.consider root targetBusId isoam)
    ⟨-1, intMax, []⟩).indices

end Nearest

structure IbvDevice where
  name : String
  busId : String
  hasActivePort : Bool

structure NICInfo where
  nicName : String
  index : ℤ

/-- What a process finds on its node: the NICs, the PCIe tree, the bus ids of the GPUs where they
can be read, the socket registers of the GPUs if the device can be opened, the lines of the forced
topology file if one is given, and the two settings. -/
structure Node where
  ibvDeviceList : List IbvDevice
  pcieRoot : PCIeNode
  gpus : List (Option String)
  mkfd : Option (List (Option ℕ))
  forcedTopo : Option (List (String × NICInfo))
  disableAutoTopo : Bool
  hcaList : Option String

def tokens (current : List Char) : List Char → List (List Char)
  | [] => if current = [] then [] else [current.reverse]
  | c :: cs => if c = ',' then current.reverse :: tokens [] cs else tokens (c :: current) cs

def hasExactMatch (namesList : List Char) (name : String) : Bool :=
  (tokens [] namesList).contains name.toList

abbrev Table := ℕ → ℤ

namespace Node

variable (node : Node)

def numGpus : ℕ := node.gpus.length

def busId (i : ℕ) : Option String := node.gpus.getD i none

def excludeList : List Char :=
  match node.hcaList.map String.toList with
  | some ('^' :: names) => names
  | _ => []

def includeList : List Char :=
  match node.hcaList.map String.toList with
  | some ('^' :: _) | none => []
  | some names => names

def buildFilteredNicAddresses : List String :=
  node.ibvDeviceList.map fun dev =>
    let isExcluded := hasExactMatch node.excludeList dev.name ||
      (node.includeList ≠ [] && !hasExactMatch node.includeList dev.name)
    if dev.hasActivePort && !isExcluded then dev.busId else ""

def pushBack (oam gpu : ℕ) : List (ℕ × List ℕ) → List (ℕ × List ℕ)
  | [] => [(oam, [gpu])]
  | (oam', gpus) :: groups =>
    if oam < oam' then (oam, [gpu]) :: (oam', gpus) :: groups
    else if oam = oam' then (oam', gpus ++ [gpu]) :: groups
    else (oam', gpus) :: pushBack oam gpu groups

def getOamToGpuMap (oamGroupMember : ℕ) : Option (List (ℕ × List ℕ)) :=
  if node.numGpus = 0 then none
  else
    node.mkfd.bind fun values =>
      (values.take node.numGpus).zipIdx.foldlM (fun groups (value, gpu) =>
        value.map fun v => pushBack (v / oamGroupMember) gpu groups) []

def forcedNic (file : List (String × NICInfo)) (i : ℕ) : Option NICInfo :=
  (file.reverse.find? fun line => line.1 = (node.busId i).getD "").map Prod.snd

def getClosestNicToGpuFromForcedTopo (file : List (String × NICInfo)) (gpuIndex : ℕ) :
    Option Table :=
  if (node.forcedNic file gpuIndex).isSome then
    some fun i => ((node.forcedNic file i).map NICInfo.index).getD (-1)
  else none

def oamNearest (ibvAddressList : List String) : Table := fun j =>
  let i := if j < node.numGpus then j else j - node.numGpus
  match node.busId i with
  | none => -1
  | some hipPciBusId =>
    let idxs := (getNearestDevicesInTree node.pcieRoot hipPciBusId ibvAddressList true).reverse
    if j < node.numGpus then idxs.getD 0 (-1) else idxs.getD 1 (-1)

def transferNic (nics : Table) (source target : ℕ) : Table :=
  let nics := update nics target (nics source)
  if nics (source + node.numGpus) ≠ -1 then
    update nics source (nics (source + node.numGpus))
  else nics

def increment (assignedCount : ℕ → ℕ) (nic : ℤ) : ℕ → ℕ :=
  update assignedCount nic.toNat (assignedCount nic.toNat + 1)

def pairUp (gpu0 gpu1 : ℕ) (s : Table × (ℕ → ℕ)) : Table × (ℕ → ℕ) :=
  let nics := if s.1 gpu0 = -1 ∧ s.1 gpu1 ≠ -1 then node.transferNic s.1 gpu1 gpu0
    else if s.1 gpu1 = -1 ∧ s.1 gpu0 ≠ -1 then node.transferNic s.1 gpu0 gpu1
    else s.1
  let assignedCount := if nics gpu1 ≠ -1 then increment s.2 (nics gpu1) else s.2
  (nics, if nics gpu0 ≠ -1 ∧ nics gpu0 ≠ nics gpu1 then increment assignedCount (nics gpu0)
    else assignedCount)

def pairUpAll : List ℕ → Table × (ℕ → ℕ) → Table × (ℕ → ℕ)
  | gpu0 :: gpu1 :: gpus, s => pairUpAll gpus (node.pairUp gpu0 gpu1 s)
  | [_], s | [], s => s

def getClosestNicToGpuFromOam (ibvAddressList : List String) : Table × (ℕ → ℕ) :=
  let nics := node.oamNearest ibvAddressList
  match node.getOamToGpuMap 2 with
  | some oamToGpus => oamToGpus.foldl (fun s group => node.pairUpAll group.2 s) (nics, fun _ => 0)
  | none => (nics, fun _ => 0)

def leastUsed (assignedCount : ℕ → ℕ) (idxs : List ℤ) : ℤ :=
  idxs.foldl (fun closestIdx idx =>
    if closestIdx = -1 ∨ assignedCount idx.toNat < assignedCount closestIdx.toNat then idx
    else closestIdx) (-1)

def closestByBus (hipPciBusId : String) (addressList : List String) : ℤ :=
  (addressList.zipIdx.foldl (fun (minDistance, closestIdx) (address, j) =>
    let distance := getBusIdDistance hipPciBusId address
    if address ≠ "" ∧ 0 ≤ distance ∧ distance < minDistance then (distance, (j : ℤ))
    else (minDistance, closestIdx)) (intMax, -1)).2

def preferUnused (ibvAddressList : List String) (assignedCount : ℕ → ℕ) (hipPciBusId : String)
    (closestIdx : ℤ) : ℤ :=
  if 0 ≤ closestIdx ∧ 0 < assignedCount closestIdx.toNat then
    let unusedAddressList := ibvAddressList.zipIdx.map fun (address, j) =>
      if address = "" ∨ assignedCount j ≠ 0 then "" else address
    if unusedAddressList.any (· ≠ "") then
      match getNearestDevicesInTree node.pcieRoot hipPciBusId unusedAddressList false with
      | unused :: _ => unused
      | [] =>
        let closestUnusedIdx := closestByBus hipPciBusId unusedAddressList
        if 0 ≤ closestUnusedIdx then closestUnusedIdx else closestIdx
    else closestIdx
  else closestIdx

def closestByDistance (ibvAddressList : List String) (s : Table × (ℕ → ℕ)) (i : ℕ) :
    Table × (ℕ → ℕ) :=
  match node.busId i with
  | none => (update s.1 i (-1), s.2)
  | some hipPciBusId =>
    let closestNicIdxs := getNearestDevicesInTree node.pcieRoot hipPciBusId ibvAddressList false
    let closestIdx := node.preferUnused ibvAddressList s.2 hipPciBusId
      (leastUsed s.2 closestNicIdxs)
    let closestIdx := if closestIdx < 0 then closestByBus hipPciBusId ibvAddressList else closestIdx
    (update s.1 i closestIdx, if closestIdx ≠ -1 then increment s.2 closestIdx else s.2)

def closestByDistanceAll (ibvAddressList : List String) (s : Table × (ℕ → ℕ)) : Table :=
  ((List.range node.numGpus).foldl (node.closestByDistance ibvAddressList) s).1

def nicName (closestIdx : ℤ) : Option String :=
  if closestIdx ≠ -1 then node.ibvDeviceList[closestIdx.toNat]?.map IbvDevice.name else none

structure Answer where
  nic : ℤ
  devName : Option String
  closestNicId : Option Table

def getClosestNicToGpu (closestNicId : Option Table) (gpuIndex : ℤ) : Option Answer :=
  if gpuIndex < 0 ∨ node.numGpus ≤ gpuIndex then some ⟨-1, none, closestNicId⟩
  else
    let g := gpuIndex.toNat
    match closestNicId, node.forcedTopo with
    | some t, _ => some ⟨t g, node.nicName (t g), some t⟩
    | none, some file =>
      (node.getClosestNicToGpuFromForcedTopo file g).map fun t =>
        ⟨t g, (node.forcedNic file g).map NICInfo.nicName, some t⟩
    | none, none =>
      let ibvAddressList := node.buildFilteredNicAddresses
      if node.disableAutoTopo then
        let t := node.closestByDistanceAll ibvAddressList (fun _ => -1, fun _ => 0)
        some ⟨t g, node.nicName (t g), some t⟩
      else
        let oam := node.getClosestNicToGpuFromOam ibvAddressList
        if 0 ≤ oam.1 g then some ⟨oam.1 g, node.nicName (oam.1 g), some oam.1⟩
        else
          let t := node.closestByDistanceAll ibvAddressList oam
          some ⟨t g, node.nicName (t g), some t⟩

def nicAfter : Option Table → List ℤ → ℤ → Option ℤ
  | closestNicId, [], g => (node.getClosestNicToGpu closestNicId g).map Answer.nic
  | closestNicId, q :: qs, g =>
    (node.getClosestNicToGpu closestNicId q).bind fun a => nicAfter a.closestNicId qs g

def IsGpu (g : ℤ) : Prop := 0 ≤ g ∧ g < node.numGpus

instance : DecidablePred node.IsGpu := fun _ => inferInstanceAs (Decidable (_ ∧ _))

def oamTable : Table := (node.getClosestNicToGpuFromOam node.buildFilteredNicAddresses).1

def distanceTable : Table :=
  node.closestByDistanceAll node.buildFilteredNicAddresses
    (node.getClosestNicToGpuFromOam node.buildFilteredNicAddresses)

def plainTable : Table :=
  node.closestByDistanceAll node.buildFilteredNicAddresses (fun _ => -1, fun _ => 0)

def firstTable (g : ℕ) : Option Table :=
  match node.forcedTopo with
  | some file => node.getClosestNicToGpuFromForcedTopo file g
  | none => some (if node.disableAutoTopo then node.plainTable
      else if 0 ≤ node.oamTable g then node.oamTable else node.distanceTable)

def TablesAgree : Prop :=
  match node.forcedTopo with
  | some file => (∀ i < node.numGpus, (node.forcedNic file i).isSome) ∨
      ∀ i < node.numGpus, (node.forcedNic file i).isNone
  | none => node.disableAutoTopo ∨ (∀ i < node.numGpus, 0 ≤ node.oamTable i) ∨
      (∀ i < node.numGpus, node.oamTable i < 0) ∨
      ∀ i < node.numGpus, node.oamTable i = node.distanceTable i

section Queries

variable {node} {c : Option Table} {g : ℤ} {i j : ℕ}

def ofIndex (t : Table) (g : ℤ) : ℤ := t g.toNat

theorem getClosestNicToGpu_of_not_isGpu (h : ¬node.IsGpu g) :
    node.getClosestNicToGpu c g = some ⟨-1, none, c⟩ := by
  have hrange : g < 0 ∨ node.numGpus ≤ g := by
    rw [IsGpu] at h
    omega
  rw [getClosestNicToGpu, if_pos hrange]

theorem getClosestNicToGpu_eq :
    ((node.getClosestNicToGpu c g).map fun a => (a.nic, a.closestNicId.map ofIndex)) =
      query (fun g => (node.firstTable g.toNat).map ofIndex) node.IsGpu (-1) (c.map ofIndex) g := by
  by_cases hg : node.IsGpu g
  case neg =>
    rw [getClosestNicToGpu_of_not_isGpu hg, query_of_not_dom _ hg]
    rfl
  have hrange : ¬(g < 0 ∨ node.numGpus ≤ g) := by
    rw [IsGpu] at hg
    omega
  rw [getClosestNicToGpu, if_neg hrange]
  cases c with
  | some t => exact (query_some (ofIndex t) hg).symm
  | none =>
    rw [Option.map_none, query_none hg]
    simp only [firstTable, oamTable, distanceTable, plainTable]
    cases node.forcedTopo with
    | some file =>
      simp only [Option.map_map]
      rfl
    | none =>
      simp only [Option.map_some]
      by_cases hdisable : node.disableAutoTopo
      · simp only [if_pos hdisable]
        rfl
      · simp only [if_neg hdisable]
        by_cases hoam : 0 ≤
            (node.getClosestNicToGpuFromOam node.buildFilteredNicAddresses).1 g.toNat
        · simp only [hoam, if_true]
          rfl
        · simp only [hoam, if_false]
          rfl

theorem nicAfter_eq (qs : List ℤ) (c : Option Table) (g : ℤ) :
    node.nicAfter c qs g = answer (fun g => (node.firstTable g.toNat).map ofIndex) node.IsGpu (-1)
      (c.map ofIndex) qs g := by
  induction qs generalizing c with
  | nil =>
    rw [nicAfter, answer, ← getClosestNicToGpu_eq, Option.map_map]
    rfl
  | cons q qs ih =>
    rw [nicAfter, answer, ← getClosestNicToGpu_eq, Option.bind_map]
    exact congrArg _ (funext fun a => ih a.closestNicId)

theorem forall_nicAfter_eq_iff :
    (∀ qs qs' g, node.IsGpu g → node.nicAfter none qs g = node.nicAfter none qs' g) ↔
      ∀ i j k, i < node.numGpus → j < node.numGpus → k < node.numGpus →
        ((node.firstTable i).map fun t => t k) = (node.firstTable j).map fun t => t k := by
  simp only [nicAfter_eq, Option.map_none]
  rw [answer_independent_iff]
  simp only [Option.map_map]
  constructor
  · intro h i j k hi hj hk
    exact h i j k ⟨Int.natCast_nonneg i, Int.ofNat_lt.mpr hi⟩
      ⟨Int.natCast_nonneg j, Int.ofNat_lt.mpr hj⟩ ⟨Int.natCast_nonneg k, Int.ofNat_lt.mpr hk⟩
  · rintro h f f' g ⟨hf, hf'⟩ ⟨hf₁, hf₁'⟩ ⟨hg, hg'⟩
    exact h f.toNat f'.toNat g.toNat (by omega) (by omega) (by omega)

end Queries

theorem forced_agree_iff {file : List (String × NICInfo)} (h : node.forcedTopo = some file) :
    (∀ i j k, i < node.numGpus → j < node.numGpus → k < node.numGpus →
      ((node.firstTable i).map fun t => t k) = (node.firstTable j).map fun t => t k) ↔
    node.TablesAgree := by
  simp only [TablesAgree, firstTable, h, getClosestNicToGpuFromForcedTopo]
  constructor
  · intro hall
    by_cases hsome : ∃ i < node.numGpus, (node.forcedNic file i).isSome
    · obtain ⟨i, hi, hi'⟩ := hsome
      refine Or.inl fun j hj => ?_
      have heq := hall i j i hi hj hi
      rw [if_pos hi'] at heq
      by_contra hj'
      rw [if_neg hj'] at heq
      cases heq
    · refine Or.inr fun i hi => ?_
      rw [Option.isNone_iff_eq_none, ← Option.not_isSome_iff_eq_none]
      exact fun hi' => hsome ⟨i, hi, hi'⟩
  · rintro (hall | hall) i j k hi hj hk
    · rw [if_pos (hall i hi), if_pos (hall j hj)]
    · have hnone : ∀ l < node.numGpus, ¬(node.forcedNic file l).isSome := fun l hl hsome => by
        have hl' := hall l hl
        rw [Option.isNone_iff_eq_none.mp hl'] at hsome
        cases hsome
      rw [if_neg (hnone i hi), if_neg (hnone j hj)]

theorem auto_agree_iff (h : node.forcedTopo = none) :
    (∀ i j k, i < node.numGpus → j < node.numGpus → k < node.numGpus →
      ((node.firstTable i).map fun t => t k) = (node.firstTable j).map fun t => t k) ↔
    node.TablesAgree := by
  simp only [TablesAgree, firstTable, h, Option.map_some, Option.some.injEq]
  cases hdisable : node.disableAutoTopo with
  | true => simp only [if_true, true_or, implies_true]
  | false =>
    simp only [Bool.false_eq_true, if_false, false_or]
    constructor
    · intro hall
      by_cases hfound : ∃ i < node.numGpus, 0 ≤ node.oamTable i
      case neg => exact Or.inr (Or.inl fun i hi => Int.not_le.mp fun hi' => hfound ⟨i, hi, hi'⟩)
      by_cases hmissing : ∃ j < node.numGpus, node.oamTable j < 0
      case neg => exact Or.inl fun j hj => Int.not_lt.mp fun hj' => hmissing ⟨j, hj, hj'⟩
      obtain ⟨i, hi, hi'⟩ := hfound
      obtain ⟨j, hj, hj'⟩ := hmissing
      refine Or.inr (Or.inr fun k hk => ?_)
      have heq := hall i j k hi hj hk
      rwa [if_pos hi', if_neg (Int.not_le.mpr hj')] at heq
    · rintro (hall | hall | hall) i j k hi hj hk
      · rw [if_pos (hall i hi), if_pos (hall j hj)]
      · rw [if_neg (Int.not_le.mpr (hall i hi)), if_neg (Int.not_le.mpr (hall j hj))]
      · have hk' := hall k hk
        split <;> split <;> simp only [hk']

end Node

section Instances

def twoBridges : Node where
  ibvDeviceList := [⟨"mlx5_0", "0000:02:00.0", true⟩]
  pcieRoot := .mk "" false none [.mk "" false none [.mk "sys" false none [.mk "devices" false none [
    .mk "pci0000:00" false none [.mk "0000:00:01.0" false none [
      .mk "0000:01:00.0" false none [], .mk "0000:02:00.0" false none []]],
    .mk "pci0000:80" false none [.mk "0000:80:01.0" false none [
      .mk "0000:81:00.0" false none []]]]]]]
  gpus := [some "0000:01:00.0", some "0000:81:00.0"]
  mkfd := none
  forcedTopo := none
  disableAutoTopo := false
  hcaList := none

end Instances

end GdaNicSelection
