import Rocshmem.AlltoallRounds
import Rocshmem.GdaAlltoallSync
import Rocshmem.IpcAlltoallv

/-! Which algorithm the members of one `alltoallv_das` call take. Every member looks at its own
four arrays; only the counts have to match between the members. -/
namespace AlltoallvAgreement

open AlltoallRounds (Conduit)
open GdaAlltoallSync (Layout regularLayout)
open IpcAlltoallv (narrow toSizeT normalCount splitWgRange)

structure Call where
  conduit : Conduit
  peSize : ℕ
  wgId : ℕ
  wgCount : ℕ
  sizeofT : ℕ
  wgAlgoCopy : Bool
  sdmaEnabled : Bool
  layout : ℕ → Layout
  pes_pos : 0 < peSize
  pes_int : peSize < 2 ^ 31
  matched : ∀ p < peSize, ∀ q < peSize, (layout p).sourceNelems q = (layout q).destNelems p

inductive Algorithm where
  | regularAlltoall
  | copy
  | get
  | uniformAlltoall
  | general
  deriving DecidableEq

/-- The synchronisation on `alltoall_pSync`: `internal_sync_wg`, or the flags of `copy`, of
`get` and of the per-thread puts in the bank of the sequence number. -/
inductive Sync where
  | barrier
  | copyFlags
  | getFlags
  | threadPutFlags
  deriving DecidableEq

def Sync.advances : Sync → Bool
  | barrier => false
  | copyFlags | getFlags | threadPutFlags => true

def uniform (peSize : ℕ) (a : Layout) : Bool :=
  a.sourceNelems 0 == a.destNelems 0 && (List.range peSize).all fun rank =>
    a.sourceNelems rank == a.sourceNelems 0 && a.destNelems rank == a.sourceNelems 0 &&
    a.sourceDispls rank == rank * a.sourceNelems 0 % 2 ^ 64 &&
    a.destDispls rank == rank * a.sourceNelems 0 % 2 ^ 64

namespace Call

variable (c : Call)

def algorithm (p : ℕ) : Algorithm :=
  match c.conduit with
  | .gda =>
    if regularLayout c.peSize (c.layout p) then .regularAlltoall
    else if c.wgAlgoCopy then .copy else .get
  | .ipc => if uniform c.peSize (c.layout p) then .uniformAlltoall else .general

def uniformElemCount (p : ℕ) : ℤ :=
  let count := (c.layout p).sourceNelems 0
  normalCount (narrow count) (narrow (splitWgRange count c.wgId c.wgCount).2)

def sync (p : ℕ) : Sync :=
  match c.algorithm p with
  | .regularAlltoall | .general => .barrier
  | .copy => .copyFlags
  | .get => .getFlags
  | .uniformAlltoall =>
    if c.sizeofT * toSizeT (c.uniformElemCount p) % 2 ^ 64 < 512 ∨ c.sdmaEnabled then
      .threadPutFlags
    else .barrier

def Agree : Prop :=
  ∀ p < c.peSize, ∀ q < c.peSize, c.algorithm p = c.algorithm q ∧ c.sync p = c.sync q ∧
    (c.sync p).advances = (c.sync q).advances

def limit (n : ℕ) : Prop :=
  match c.conduit with
  | .gda => n ≤ 0x7fffffff
  | .ipc => True

structure Packed (p n : ℕ) : Prop where
  small : c.limit n
  sent : ∀ q < c.peSize, (c.layout p).sourceNelems q = n
  received : ∀ q < c.peSize, (c.layout p).destNelems q = n
  sentAt : ∀ q < c.peSize, (c.layout p).sourceDispls q = q * n % 2 ^ 64
  receivedAt : ∀ q < c.peSize, (c.layout p).destDispls q = q * n % 2 ^ 64

variable {c} {p q n : ℕ}

theorem Packed.count_eq (h : c.Packed p n) : (c.layout p).sourceNelems 0 = n :=
  h.sent 0 c.pes_pos

theorem uniform_iff (a : Layout) : uniform c.peSize a ↔ ∀ q < c.peSize,
    a.sourceNelems q = a.sourceNelems 0 ∧ a.destNelems q = a.sourceNelems 0 ∧
    a.sourceDispls q = q * a.sourceNelems 0 % 2 ^ 64 ∧
    a.destDispls q = q * a.sourceNelems 0 % 2 ^ 64 := by
  simp only [uniform, Bool.and_eq_true, beq_iff_eq, List.all_eq_true, List.mem_range, and_assoc]
  constructor
  · exact fun h => h.2
  · exact fun h => ⟨(h 0 c.pes_pos).2.1.symm, h⟩

theorem product_lt (hq : q < c.peSize) (hn : n ≤ 0x7fffffff) : q * n % 2 ^ 64 = q * n := by
  have hpes := c.pes_int
  have hle : q * n ≤ 2 ^ 31 * 2 ^ 31 := Nat.mul_le_mul (by omega) (by omega)
  exact Nat.mod_eq_of_lt (by omega)

theorem regularLayout_iff (a : Layout) : regularLayout c.peSize a ↔ a.sourceNelems 0 ≤ 0x7fffffff ∧
    ∀ q < c.peSize, a.sourceNelems q = a.sourceNelems 0 ∧ a.destNelems q = a.sourceNelems 0 ∧
    a.sourceDispls q = q * a.sourceNelems 0 % 2 ^ 64 ∧
    a.destDispls q = q * a.sourceNelems 0 % 2 ^ 64 := by
  grind [regularLayout, product_lt]

def fast (c : Call) (p : ℕ) : Bool :=
  match c.conduit with
  | .gda => regularLayout c.peSize (c.layout p)
  | .ipc => uniform c.peSize (c.layout p)

theorem fast_iff : c.fast p ↔ ∃ n, c.Packed p n := by
  have hpacked : (∃ n, c.Packed p n) ↔ c.limit ((c.layout p).sourceNelems 0) ∧ ∀ q < c.peSize,
      (c.layout p).sourceNelems q = (c.layout p).sourceNelems 0 ∧
      (c.layout p).destNelems q = (c.layout p).sourceNelems 0 ∧
      (c.layout p).sourceDispls q = q * (c.layout p).sourceNelems 0 % 2 ^ 64 ∧
      (c.layout p).destDispls q = q * (c.layout p).sourceNelems 0 % 2 ^ 64 := by
    constructor
    · grind [Packed, Packed.count_eq]
    · rintro ⟨hsmall, h⟩
      exact ⟨_, hsmall, fun q hq => (h q hq).1, fun q hq => (h q hq).2.1,
        fun q hq => (h q hq).2.2.1, fun q hq => (h q hq).2.2.2⟩
  rw [hpacked, fast, limit]
  cases c.conduit with
  | gda => exact regularLayout_iff _
  | ipc => rw [uniform_iff, true_and]

theorem Packed.eq_of_matched {n' : ℕ} (hp : p < c.peSize) (hq : q < c.peSize) (h : c.Packed p n)
    (h' : c.Packed q n') : n = n' := by
  rw [← h.sent q hq, c.matched p hp q hq, h'.received p hp]

theorem algorithm_eq (p : ℕ) : c.algorithm p = match c.conduit, c.fast p, c.wgAlgoCopy with
    | .gda, true, _ => .regularAlltoall
    | .gda, false, true => .copy
    | .gda, false, false => .get
    | .ipc, true, _ => .uniformAlltoall
    | .ipc, false, _ => .general := by
  grind [algorithm, fast]

theorem algorithm_eq_iff : c.algorithm p = c.algorithm q ↔ c.fast p = c.fast q := by
  rw [algorithm_eq, algorithm_eq]
  cases c.conduit <;> cases c.fast p <;> cases c.fast q <;> cases c.wgAlgoCopy <;> simp

theorem sync_eq_of_algorithm (hp : p < c.peSize) (hq : q < c.peSize)
    (h : c.algorithm p = c.algorithm q) : c.sync p = c.sync q := by
  have hfast := algorithm_eq_iff.mp h
  unfold sync
  rw [← h]
  cases hpf : c.fast p with
  | true =>
    obtain ⟨n, hn⟩ := fast_iff.mp hpf
    obtain ⟨n', hn'⟩ := fast_iff.mp (hfast.symm.trans hpf)
    have hcount : (c.layout p).sourceNelems 0 = (c.layout q).sourceNelems 0 := by
      rw [hn.count_eq, hn'.count_eq, hn.eq_of_matched hp hq hn']
    have helem : c.uniformElemCount p = c.uniformElemCount q := by
      rw [uniformElemCount, uniformElemCount, hcount]
    rw [helem]
  | false =>
    rw [algorithm_eq, hpf]
    cases c.conduit <;> cases c.wgAlgoCopy <;> rfl

/-- The members agree if and only if one count is exchanged by all pairs and every member
stores its blocks packed, or every member has some other count or some gap. -/
theorem agree_iff (c : Call) : c.Agree ↔
    (∃ n, ∀ p < c.peSize, c.Packed p n) ∨ ∀ p < c.peSize, ∀ n, ¬ c.Packed p n := by
  constructor
  · intro h
    by_cases hzero : c.fast 0
    · left
      obtain ⟨n, hn⟩ := fast_iff.mp hzero
      refine ⟨n, fun p hp => ?_⟩
      have hfast := algorithm_eq_iff.mp (h p hp 0 c.pes_pos).1
      obtain ⟨n', hn'⟩ := fast_iff.mp (hfast.trans hzero)
      rwa [hn.eq_of_matched c.pes_pos hp hn']
    · right
      intro p hp n hn
      have hfast := algorithm_eq_iff.mp (h p hp 0 c.pes_pos).1
      exact hzero (hfast.symm.trans (fast_iff.mpr ⟨n, hn⟩))
  · intro h p hp q hq
    have hfast : c.fast p = c.fast q := by
      rw [Bool.eq_iff_iff, fast_iff, fast_iff]
      rcases h with ⟨n, hn⟩ | hnone
      · exact iff_of_true ⟨n, hn p hp⟩ ⟨n, hn q hq⟩
      · exact iff_of_false (fun ⟨n, hn⟩ => hnone p hp n hn) fun ⟨n, hn⟩ => hnone q hq n hn
    have halg := algorithm_eq_iff.mpr hfast
    have hsync := sync_eq_of_algorithm hp hq halg
    exact ⟨halg, hsync, by rw [hsync]⟩

end Call

theorem two_int : 2 < 2 ^ 31 := by decide

def mixedDispls (k : Conduit) : Call where
  conduit := k
  peSize := 2
  wgId := 0
  wgCount := 1
  sizeofT := 8
  wgAlgoCopy := true
  sdmaEnabled := false
  layout p := if p = 0 then GdaAlltoallSync.ordered else GdaAlltoallSync.reversed
  pes_pos := Nat.two_pos
  pes_int := two_int
  matched := by decide

theorem three_pes : 0 < 3 := by decide

def mixedCounts (k : Conduit) : Call where
  conduit := k
  peSize := 3
  wgId := 0
  wgCount := 1
  sizeofT := 8
  wgAlgoCopy := true
  sdmaEnabled := false
  layout
    | 0 => ⟨fun _ => 1, fun q => q, fun _ => 1, fun q => q⟩
    | 1 => ⟨fun q => if q = 2 then 2 else 1, fun q => q,
      fun q => if q = 2 then 2 else 1, fun q => q⟩
    | _ => ⟨fun q => if q = 1 then 2 else 1, fun q => if q = 2 then 3 else q,
        fun q => if q = 1 then 2 else 1, fun q => if q = 2 then 3 else q⟩
  pes_pos := three_pes
  pes_int := by decide
  matched := by decide

theorem members_disagree :
    ((mixedDispls .gda).algorithm 0 = .regularAlltoall ∧ (mixedDispls .gda).algorithm 1 = .copy ∧
      (mixedDispls .gda).sync 0 = .barrier ∧ (mixedDispls .gda).sync 1 = .copyFlags) ∧
    ((mixedDispls .ipc).algorithm 0 = .uniformAlltoall ∧
      (mixedDispls .ipc).algorithm 1 = .general ∧
      (mixedDispls .ipc).sync 0 = .threadPutFlags ∧ (mixedDispls .ipc).sync 1 = .barrier) ∧
    ((mixedCounts .gda).algorithm 0 = .regularAlltoall ∧ (mixedCounts .gda).algorithm 1 = .copy) ∧
    ∀ k, ¬ (mixedDispls k).Agree ∧ ¬ (mixedCounts k).Agree := by
  refine ⟨by decide, by decide +kernel, by decide, fun k => ⟨fun h => ?_, fun h => ?_⟩⟩
  · have hsame := (h 0 Nat.two_pos 1 Nat.one_lt_two).1
    cases k <;> exact absurd hsame (by decide)
  · have hsame := (h 0 (Nat.succ_pos 2) 1 (Nat.succ_lt_succ Nat.two_pos)).1
    cases k <;> exact absurd hsame (by decide)

end AlltoallvAgreement
