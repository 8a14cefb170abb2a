import Rocshmem.RacyPrograms
import Rocshmem.CentralDirectBarrier

/-! The GDA collectives that share `alltoall_pSync`, call after call on one team.
`alltoallv_das` publishes completion counts that it never clears, in words chosen by the
parity of the sequence number. The linear paths and the broadcasts of a large
`fcollect_linear_das` run `internal_sync_wg` on the same words, and `alltoallmem` adds to
them. A call is a list of stages, and a stage ends with one of these synchronisations. -/
namespace GdaAlltoallSync

open List MatchedPrograms RacyPrograms
open CentralDirectBarrier (Team flagVal syncValue)

inductive Kind where
  | copy
  | get
  | mem
  | barrier
  deriving DecidableEq, Repr

structure Layout where
  sourceNelems : ℕ → ℕ
  sourceDispls : ℕ → ℕ
  destNelems : ℕ → ℕ
  destDispls : ℕ → ℕ

inductive Call where
  | alltoallv (wgId wgCount sizeofT : ℕ) (layout : ℕ → Layout)
  | alltoallLinear
  | fcollectLinear (elemCount sizeofT : ℕ)
  | alltoallmem

structure Setup where
  team : Team
  wfCount : ℕ → ℕ
  wf_pos : ∀ k, 0 < wfCount k
  wgAlgoCopy : Bool
  ipcShmSize : ℕ
  ipcStride : ℕ

def splitOffset (total wgId wgCount : ℕ) : ℕ :=
  wgId * (total / wgCount) + if wgId < total % wgCount then wgId else total % wgCount

def splitCount (total wgId wgCount : ℕ) : ℕ :=
  total / wgCount + if wgId < total % wgCount then 1 else 0

def regularLayout (peSize : ℕ) (a : Layout) : Bool :=
  a.sourceNelems 0 ≤ 0x7fffffff && (range peSize).all fun pe =>
    a.sourceNelems pe == a.sourceNelems 0 && a.destNelems pe == a.sourceNelems 0 &&
    a.sourceDispls pe == pe * a.sourceNelems 0 && a.destDispls pe == pe * a.sourceNelems 0

def reduceMinWrkdataSize : ℕ := 1048576

def tmpBufOff (peSize sizeofT : ℕ) : ℕ := reduceMinWrkdataSize * 8 / (peSize * sizeofT)

def slicesFit (peSize wgId wgCount sizeofT : ℕ) (a : Layout) : Bool :=
  (range peSize).all fun j =>
    splitCount (a.sourceNelems j) wgId wgCount ≤ tmpBufOff peSize sizeofT &&
    splitCount (a.destNelems j) wgId wgCount ≤ tmpBufOff peSize sizeofT

def kHierarchicalMinBytes : ℕ := 256 * 1024

def useProxyBcast (u : Setup) (nbytes : ℕ) : Bool :=
  kHierarchicalMinBytes ≤ nbytes && u.team.stride == 1 && 1 < u.ipcShmSize &&
  u.ipcStride == 1 && u.team.peStart % u.ipcShmSize == 0 &&
  u.team.nPes % u.ipcShmSize == 0 && u.ipcShmSize < u.team.nPes

def stages (u : Setup) (p : ℕ) : Call → List Kind
  | .alltoallv _ _ _ layout =>
    if regularLayout u.team.nPes (layout p) then [.barrier]
    else if u.wgAlgoCopy then [.copy] else [.get]
  | .alltoallLinear => [.barrier]
  | .fcollectLinear elemCount sizeofT =>
    if 4 ≤ u.team.nPes ∧ kHierarchicalMinBytes ≤ elemCount * sizeofT then
      replicate (u.team.nPes * if useProxyBcast u (elemCount * sizeofT) then 3 else 2) .barrier
    else [.barrier]
  | .alltoallmem => [.mem]

/-- What the members do in their stages: the synchronisation, whether the slices of a copy
fit, and the displacement that a member announces to another. -/
structure Schedule where
  kind : ℕ → ℕ → Option Kind
  fits : ℕ → ℕ → Bool
  displ : ℕ → ℕ → ℕ → ℕ

def program (u : Setup) (calls : List Call) (p : ℕ) : List (Kind × Call) :=
  calls.flatMap fun c => (stages u p c).map fun κ => (κ, c)

def schedule (u : Setup) (calls : List Call) : Schedule where
  kind p k := (program u calls p)[k]?.map Prod.fst
  fits p k := match (program u calls p)[k]? with
    | some (_, .alltoallv wgId wgCount sizeofT layout) =>
      slicesFit u.team.nPes wgId wgCount sizeofT (layout p)
    | _ => true
  displ p q k := match (program u calls p)[k]? with
    | some (_, .alltoallv wgId wgCount _ layout) =>
      (layout p).sourceDispls q + splitOffset ((layout p).sourceNelems q) wgId wgCount
    | _ => 0

/-- The statements of stage `k`. A first member argument is the member that executes it, a
second one its peer; puts and additions are marked where they take effect. -/
inductive Event where
  | transfer (p k : ℕ)
  | payload (p q k : ℕ)
  | control (p q k : ℕ)
  | consume (q p k : ℕ)
  | fetch (q p k : ℕ)
  | publish (p q k : ℕ)
  | seen (q p k : ℕ)
  | increment (p q k : ℕ)
  | tally (q p k : ℕ)
  | quiet (q p k : ℕ)
  | zero (q p k : ℕ)
  | unpack (q p k : ℕ)
  | arrive (i k : ℕ)
  | collect (i k : ℕ)
  | reset (i k : ℕ)
  | gather (k : ℕ)
  | wipe (k : ℕ)
  | raise (k : ℕ)
  | release (i k : ℕ)
  | lower (k : ℕ)
  | await (i k : ℕ)
  | clear (i k : ℕ)
  | ret (p k : ℕ)
  deriving DecidableEq, Repr

inductive Cell where
  | pSync (pe idx : ℕ)
  | ctrl (pe src : ℕ)
  deriving DecidableEq, Repr

variable (u : Setup) (σ : Schedule)

def Runs (p k : ℕ) (κ : Kind) : Prop := σ.kind p k = some κ ∧ (κ = .copy → σ.fits p k = true)

instance (p k : ℕ) (κ : Kind) : Decidable (Runs σ p k κ) := inferInstanceAs (Decidable (_ ∧ _))

def IsMember (p : ℕ) : Prop := p < u.team.nPes

instance (p : ℕ) : Decidable (IsMember u p) := inferInstanceAs (Decidable (_ < _))

def Direct : Prop := u.team.nPes < 64

instance : Decidable (Direct u) := inferInstanceAs (Decidable (_ < _))

def Occurs : Event → Prop
  | .transfer p k => IsMember u p ∧ Runs σ p k .barrier
  | .payload p q k => IsMember u p ∧ IsMember u q ∧ (Runs σ p k .copy ∨ Runs σ p k .mem)
  | .control p q k | .consume p q k | .fetch p q k =>
    IsMember u p ∧ IsMember u q ∧ Runs σ p k .get
  | .publish p q k | .seen p q k =>
    IsMember u p ∧ IsMember u q ∧ (Runs σ p k .copy ∨ Runs σ p k .get)
  | .increment p q k | .tally p q k | .zero p q k =>
    IsMember u p ∧ IsMember u q ∧ Runs σ p k .mem
  | .unpack p q k => IsMember u p ∧ IsMember u q ∧ Runs σ p k .copy
  | .quiet p q k =>
    IsMember u p ∧ IsMember u q ∧ (Runs σ p k .copy ∨ Runs σ p k .get ∨ Runs σ p k .mem)
  | .arrive i k | .await i k | .clear i k => 0 < i ∧ IsMember u i ∧ Runs σ i k .barrier
  | .collect i k | .reset i k => Direct u ∧ 0 < i ∧ IsMember u i ∧ Runs σ 0 k .barrier
  | .release i k => 0 < i ∧ IsMember u i ∧ Runs σ 0 k .barrier
  | .gather k | .wipe k | .raise k => ¬ Direct u ∧ Runs σ 0 k .barrier
  | .lower k => Runs σ 0 k .barrier
  | .ret p k => IsMember u p ∧
    (Runs σ p k .copy ∨ Runs σ p k .get ∨ Runs σ p k .mem ∨ Runs σ p k .barrier)

instance : DecidablePred (Occurs u σ) := by
  intro e
  cases e <;> dsimp only [Occurs] <;> infer_instance

def owner : Event → ℕ
  | .transfer p _ | .payload p _ _ | .control p _ _ | .consume p _ _ | .fetch p _ _ => p
  | .publish p _ _ | .seen p _ _ | .increment p _ _ | .tally p _ _ | .quiet p _ _ => p
  | .zero p _ _ | .unpack p _ _ | .arrive p _ | .await p _ | .clear p _ | .ret p _ => p
  | .collect _ _ | .reset _ _ | .gather _ | .wipe _ | .raise _ | .release _ _ | .lower _ => 0

def stage : Event → ℕ
  | .transfer _ k | .payload _ _ k | .control _ _ k | .consume _ _ k | .fetch _ _ k => k
  | .publish _ _ k | .seen _ _ k | .increment _ _ k | .tally _ _ k | .quiet _ _ k => k
  | .zero _ _ k | .unpack _ _ k | .arrive _ k | .await _ k | .clear _ k | .ret _ k => k
  | .collect _ k | .reset _ k | .gather k | .wipe k | .raise k | .release _ k | .lower k => k

def counted : Option Kind → Bool
  | some .copy | some .get | some .mem => true
  | _ => false

def sequenceNumber (p : ℕ) : ℕ → ℕ
  | 0 => 0
  | k + 1 => sequenceNumber p k + if counted (σ.kind p k) then 1 else 0

def completionCount (sn : ℕ) : ℕ := sn / 2 + 1

def peerWord (q p sn : ℕ) : Cell := .pSync (u.team.member q) (sn % 2 * u.team.nPes + p)

def ctrlWord (q p : ℕ) : Cell := .ctrl (u.team.member q) (u.team.member p)

def seqMask (n : ℕ) : ℕ := n % 65536

def ctrlMsg (sn displ : ℕ) : ℤ := seqMask (sn + 1) * 2 ^ 48 + displ % 2 ^ 48

def seqBits (ctrlValue : ℤ) : ℤ := ctrlValue / 2 ^ 48 % 65536

def releaseTarget (k i : ℕ) : ℕ :=
  if Direct u then
    u.team.peStart + u.team.stride + (i - 1) % u.wfCount k +
      (i - 1) / u.wfCount k * (u.wfCount k * u.team.stride)
  else u.team.member i

def peers (f : ℕ → Event) : List Event := (range u.team.nPes).map f

def others (f : ℕ → Event) : List Event := (range (u.team.nPes - 1)).map fun i => f (i + 1)

def gathered (k : ℕ) : List Event :=
  if Direct u then .transfer 0 k :: others u fun i => .reset i k else [.raise k]

def within : Event → List Event
  | .transfer _ _ | .payload _ _ _ | .control _ _ _ => []
  | .consume q _ k => peers u fun p => .control q p k
  | .fetch q p k => [.consume q p k]
  | .publish p q k => if Runs σ p k .get then [.consume p q k] else [.payload p q k]
  | .seen q _ k => if Runs σ q k .get then peers u fun p => .consume q p k else []
  | .increment p q k => [.payload p q k]
  | .tally _ _ _ => []
  | .quiet q p k =>
    if Runs σ q k .mem then [.tally q p k, .payload q p k, .increment q p k]
    else if Runs σ q k .get then [.seen q p k, .fetch q p k, .publish q p k]
    else [.seen q p k, .payload q p k, .publish q p k]
  | .zero q p k => [.quiet q p k]
  | .unpack q _ k => peers u fun p => .quiet q p k
  | .arrive i k => [.transfer i k]
  | .collect _ k => [.transfer 0 k]
  | .reset i k => [.collect i k]
  | .gather k => [.transfer 0 k]
  | .wipe k => [.gather k]
  | .raise k => [.wipe k]
  | .release _ k => gathered u k
  | .lower k => gathered u k ++ others u fun i => .release i k
  | .await i k => if Direct u then [.arrive i k] else [.transfer i k]
  | .clear i k => [.await i k]
  | .ret p k =>
    if Runs σ p k .barrier then (if p = 0 then [.lower k] else [.clear p k])
    else if Runs σ p k .mem then peers u fun q => .zero p q k
    else if Runs σ p k .get then peers u fun q => .quiet p q k
    else peers u fun q => .unpack p q k

def previous (e : Event) : List Event :=
  match stage e with
  | 0 => []
  | k + 1 => [.ret (owner e) k]

def preds (e : Event) : List Event := previous e ++ within u σ e

def guard : Event → (Cell → ℤ) → Prop
  | .consume q p k, m => seqBits (m (ctrlWord u q p)) = seqMask (sequenceNumber σ q k + 1)
  | .seen q p k, m =>
    (completionCount (sequenceNumber σ q k) : ℤ) ≤ m (peerWord u q p (sequenceNumber σ q k))
  | .tally q p k, m => m (peerWord u q p (sequenceNumber σ q k)) = 1
  | .collect i _, m => m (.pSync u.team.peStart i) = flagVal
  | .gather _, m => m (.pSync u.team.peStart 0) = ((u.team.nPes - 1 : ℕ) : ℤ)
  | .await i _, m => m (.pSync (u.team.member i) 0) = flagVal
  | _, _ => True

instance (e : Event) (m : Cell → ℤ) : Decidable (guard u σ e m) := by
  cases e <;> dsimp only [guard] <;> infer_instance

def action : Event → Effect Cell ℤ
  | .control p q k => .store (ctrlWord u q p) fun _ => ctrlMsg (sequenceNumber σ p k)
    (σ.displ p q k)
  | .publish p q k =>
    .store (peerWord u q p (sequenceNumber σ p k)) fun _ => completionCount (sequenceNumber σ p k)
  | .increment p q k => .add (peerWord u q p (sequenceNumber σ p k)) 1
  | .zero q p k => .store (peerWord u q p (sequenceNumber σ q k)) fun _ => syncValue
  | .arrive i _ =>
    if Direct u then .store (.pSync u.team.peStart i) fun _ => flagVal
    else .add (.pSync u.team.peStart 0) flagVal
  | .reset i _ => .store (.pSync u.team.peStart i) fun _ => syncValue
  | .wipe _ => .store (.pSync u.team.peStart 0) fun _ => syncValue
  | .raise _ => .store (.pSync u.team.peStart 0) fun _ => flagVal
  | .release i k =>
    .store (.pSync (releaseTarget u k i) 0) fun m =>
      if Direct u then flagVal else m (.pSync u.team.peStart 0)
  | .lower _ => .store (.pSync u.team.peStart 0) fun _ => syncValue
  | .clear i _ => .store (.pSync (u.team.member i) 0) fun _ => syncValue
  | _ => .skip

def sys : System Event Cell ℤ where
  event := Occurs u σ
  pre a e := a ∈ preds u σ e
  guard := guard u σ
  action := action u σ

instance : DecidablePred (sys u σ).event := inferInstanceAs (DecidablePred (Occurs u σ))

instance (e : Event) (m : Cell → ℤ) : Decidable ((sys u σ).guard e m) :=
  inferInstanceAs (Decidable (guard u σ e m))

def init : Cell → ℤ := fun _ => syncValue

def waitsFor : Event → Event → Prop
  | .consume q p k, a => p ≠ q ∧ a = .control p q k
  | .seen q p k, a => p ≠ q ∧ a = .publish p q k
  | .tally q p k, a => p ≠ q ∧ a = .increment p q k
  | .collect i k, a => a = .arrive i k
  | .gather k, a => ∃ i, 0 < i ∧ IsMember u i ∧ a = .arrive i k
  | .await i k, a => a ∈ gathered u k ∨
    ∃ j, 0 < j ∧ IsMember u j ∧ releaseTarget u k j = u.team.member i ∧ a = .release j k
  | _, _ => False

def leaves : Event → ℤ → Prop
  | .control p q k, v => v = ctrlMsg (sequenceNumber σ p k) (σ.displ p q k)
  | .publish p _ k, v => v = completionCount (sequenceNumber σ p k)
  | .zero _ _ _, v | .reset _ _, v | .wipe _, v | .lower _, v | .clear _ _, v => v = syncValue
  | _, _ => True

def certificate : Certificate Event (ℤ → Prop) := ⟨waitsFor u, leaves σ⟩

def Landed (p q k : ℕ) (X : Set Event) : Prop :=
  match σ.kind q k with
  | some .barrier => .transfer p k ∈ X
  | some .copy => .payload p q k ∈ X ∧ .unpack q p k ∈ X
  | some .mem => .payload p q k ∈ X
  | some .get => .control p q k ∈ X ∧ .fetch q p k ∈ X
  | none => False

def Publishes (p k : ℕ) : Prop := σ.kind p k = some .copy ∨ σ.kind p k = some .get

def OnWords (par k : ℕ) : Prop :=
  (counted (σ.kind 0 k) = true ∧ sequenceNumber σ 0 k % 2 = par) ∨
  (σ.kind 0 k = some .barrier ∧ par = 0)

def LeftCount (par k' k : ℕ) : Prop :=
  k' < k ∧ Publishes σ 0 k' ∧ sequenceNumber σ 0 k' % 2 = par ∧
  ∀ k'', k' < k'' → k'' < k → ¬ OnWords σ par k''

def leftCount (k' : ℕ) : ℕ := completionCount (sequenceNumber σ 0 k')

structure Clean (k : ℕ) : Prop where
  agree : ∀ p, IsMember u p → σ.kind p k = σ.kind 0 k
  mem : 2 ≤ u.team.nPes → σ.kind 0 k = some .mem →
    ∀ k', LeftCount σ (sequenceNumber σ 0 k % 2) k' k → leftCount σ k' ≠ 1
  direct : 2 ≤ u.team.nPes → Direct u → σ.kind 0 k = some .barrier →
    ∀ k', LeftCount σ 0 k' k → leftCount σ k' ≠ 1
  atomic : ¬ Direct u → σ.kind 0 k = some .barrier →
    ∀ k', LeftCount σ 0 k' k → u.team.nPes - 1 < leftCount σ k'
  get : 2 ≤ u.team.nPes → σ.kind 0 k = some .get →
    (∀ k' < k, σ.kind 0 k' = some .get → (∀ k'', k' < k'' → k'' < k → σ.kind 0 k'' ≠ some .get) →
      seqMask (sequenceNumber σ 0 k' + 1) ≠ seqMask (sequenceNumber σ 0 k + 1)) ∧
    ((∀ k' < k, σ.kind 0 k' ≠ some .get) → seqMask (sequenceNumber σ 0 k + 1) ≠ 0)

def CleanSoFar (_ : Set Event) (_ : Cell → ℤ) (e : Event) : Prop := ∀ k ≤ stage e, Clean u σ k

variable {a e w : Event} {k' : ℕ}

section Programs

variable {u : Setup} {σ : Schedule} {X : Set Event}

@[simp]
theorem runs_iff {p k : ℕ} {κ : Kind} (hκ : κ ≠ .copy) : Runs σ p k κ ↔ σ.kind p k = some κ := by
  simp [Runs, hκ]

theorem publishes_or_mem {p k : ℕ} (h : counted (σ.kind p k) = true) :
    Publishes σ p k ∨ σ.kind p k = some .mem := by
  grind [counted, Publishes]

variable {f : ℕ → Event}

theorem mem_peers {q : ℕ} (hq : IsMember u q) : f q ∈ peers u f :=
  mem_map.mpr ⟨q, mem_range.mpr hq, rfl⟩

theorem mem_others {i : ℕ} (hi : 0 < i) (hm : IsMember u i) : f i ∈ others u f := by
  have hm' : i < u.team.nPes := hm
  exact mem_map.mpr ⟨i - 1, mem_range.mpr (by omega), by rw [Nat.sub_add_cancel hi]⟩

section

variable (hX : Closed (sys u σ) (certificate u σ) X)
include hX

theorem of_within (he : e ∈ X) (ha : a ∈ within u σ e) : a ∈ X :=
  (hX e he).1 a (mem_append_right _ ha)

theorem ret_of_previous {p k : ℕ} (d : ℕ) (h : .ret p (k + d) ∈ X) : .ret p k ∈ X := by
  induction d with
  | zero => exact h
  | succ d ih => exact ih ((hX _ h).1 _ (mem_append_left _ (by simp [previous, stage, owner])))

theorem ready_past (hr : (sys u σ).Ready X e) {k : ℕ} (hk : k < stage e) :
    .ret (owner e) k ∈ X := by
  obtain ⟨d, hd⟩ := Nat.exists_eq_add_of_lt hk
  apply ret_of_previous hX d
  apply hr _ (mem_append_left _ _)
  simp [previous, hd]

theorem ret_of_later (he : e ∈ X) {k : ℕ} (hk : k < stage e) : .ret (owner e) k ∈ X :=
  ready_past hX (hX e he).1 hk

end

theorem reset_of_gathered {i k : ℕ} (hd : Direct u) (hi : 0 < i) (hm : IsMember u i)
    (h : ∀ a ∈ gathered u k, a ∈ X) : .reset i k ∈ X := by
  grind [gathered, mem_others]

section Stages

variable (hX : Closed (sys u σ) (certificate u σ) X) {p q i k : ℕ}

include hX

theorem unpack_of_ret (hk : σ.kind p k = some .copy) (hq : IsMember u q) (h : .ret p k ∈ X) :
    .unpack p q k ∈ X := by
  apply of_within hX h
  simp [within, hk, mem_peers hq]

theorem quiet_of_ret (hV : Publishes σ p k) (hq : IsMember u q) (h : .ret p k ∈ X) :
    .quiet p q k ∈ X := by
  rcases hV with hk | hk
  · apply of_within hX (unpack_of_ret hX hk hq h)
    exact mem_peers (f := fun q => .quiet p q k) hq
  · apply of_within hX h
    simp [within, hk, mem_peers hq]

theorem publish_of_ret (hV : Publishes σ p k) (hq : IsMember u q) (h : .ret p k ∈ X) :
    .publish p q k ∈ X := by
  apply of_within hX (quiet_of_ret hX hV hq h)
  rcases hV with hk | hk <;> simp [within, hk]

theorem published_of_ret (hV : Publishes σ q k) (hp : IsMember u p) (h : .ret q k ∈ X) :
    .publish p q k ∈ X := by
  by_cases hpq : p = q
  · subst hpq
    exact publish_of_ret hX hV hp h
  · have hseen : .seen q p k ∈ X := by
      apply of_within hX (quiet_of_ret hX hV hp h)
      rcases hV with hk | hk <;> simp [within, hk]
    exact (hX _ hseen).2 _ ⟨hpq, rfl⟩

theorem zero_of_ret (hk : σ.kind p k = some .mem) (hq : IsMember u q) (h : .ret p k ∈ X) :
    .zero p q k ∈ X := by
  apply of_within hX h
  simp [within, hk, mem_peers hq]

theorem quiet_of_zero (h : .zero p q k ∈ X) : .quiet p q k ∈ X :=
  of_within hX h (by simp [within])

theorem increment_of_ret (hk : σ.kind p k = some .mem) (hq : IsMember u q) (h : .ret p k ∈ X) :
    .increment p q k ∈ X := by
  apply of_within hX (quiet_of_zero hX (zero_of_ret hX hk hq h))
  simp [within, hk]

theorem increment_of_zero (hk : σ.kind q k = some .mem) (h : .zero q p k ∈ X) :
    .increment p q k ∈ X := by
  have hquiet := quiet_of_zero hX h
  by_cases hpq : p = q
  · subst hpq
    apply of_within hX hquiet
    simp [within, hk]
  · have htally : .tally q p k ∈ X := by
      apply of_within hX hquiet
      simp [within, hk]
    exact (hX _ htally).2 _ ⟨hpq, rfl⟩

theorem lower_of_ret (hk : σ.kind 0 k = some .barrier) (h : .ret 0 k ∈ X) : .lower k ∈ X := by
  apply of_within hX h
  simp [within, hk]

theorem gathered_of_lower (h : .lower k ∈ X) : ∀ a ∈ gathered u k, a ∈ X :=
  fun _ ha => of_within hX h (mem_append_left _ ha)

theorem release_of_lower (hi : 0 < i) (hm : IsMember u i) (h : .lower k ∈ X) : .release i k ∈ X :=
  of_within hX h (mem_append_right _ (mem_others (f := fun i => .release i k) hi hm))

theorem clear_of_ret (hk : σ.kind i k = some .barrier) (hi : 0 < i) (h : .ret i k ∈ X) :
    .clear i k ∈ X := by
  apply of_within hX h
  simp [within, hk, hi.ne']

theorem await_of_clear (h : .clear i k ∈ X) : .await i k ∈ X :=
  of_within hX h (by simp [within])

theorem gathered_of_await (h : .await i k ∈ X) : ∀ a ∈ gathered u k, a ∈ X :=
  fun a ha => (hX _ h).2 a (.inl ha)

theorem release_of_clear (hq : 0 < q ∧ IsMember u q) (ht : releaseTarget u k q = u.team.member i)
    (h : .clear i k ∈ X) : .release q k ∈ X :=
  (hX _ (await_of_clear hX h)).2 _ (.inr ⟨q, hq.1, hq.2, ht, rfl⟩)

theorem arrive_of_reset (h : .reset i k ∈ X) : .arrive i k ∈ X := by
  have hcollect : .collect i k ∈ X := of_within hX h (by simp [within])
  exact (hX _ hcollect).2 _ rfl

theorem wipe_of_gathered (hd : ¬ Direct u) (h : ∀ a ∈ gathered u k, a ∈ X) : .wipe k ∈ X := by
  have hraise : .raise k ∈ X := h _ (by simp [gathered, hd])
  exact of_within hX hraise (by simp [within])

theorem gather_of_wipe (h : .wipe k ∈ X) : .gather k ∈ X :=
  of_within hX h (by simp [within])

theorem arrive_of_wipe (hi : 0 < i) (hm : IsMember u i) (h : .wipe k ∈ X) : .arrive i k ∈ X :=
  (hX _ (gather_of_wipe hX h)).2 _ ⟨i, hi, hm, rfl⟩

theorem arrive_of_gathered (hi : 0 < i) (hm : IsMember u i) (h : ∀ a ∈ gathered u k, a ∈ X) :
    .arrive i k ∈ X := by
  by_cases hd : Direct u
  · exact arrive_of_reset hX (reset_of_gathered hd hi hm h)
  · exact arrive_of_wipe hX hi hm (wipe_of_gathered hX hd h)

theorem root_transfer_of_gathered (h : ∀ a ∈ gathered u k, a ∈ X) : .transfer 0 k ∈ X := by
  by_cases hd : Direct u
  · exact h _ (by simp [gathered, hd])
  · exact of_within hX (gather_of_wipe hX (wipe_of_gathered hX hd h)) (by simp [within])

theorem gathered_of_ret (hk : σ.kind i k = some .barrier) (h : .ret i k ∈ X) :
    ∀ a ∈ gathered u k, a ∈ X := by
  by_cases hi : i = 0
  · subst hi
    exact gathered_of_lower hX (lower_of_ret hX hk h)
  · exact gathered_of_await hX (await_of_clear hX (clear_of_ret hX hk (pos_of_ne_zero hi) h))

end Stages

section Words

variable {p q p' q' s s' i k : ℕ}

theorem peer_word_inj (hp : IsMember u p) (hp' : IsMember u p') :
    peerWord u q p s = peerWord u q' p' s' ↔ q = q' ∧ p = p' ∧ s % 2 = s' % 2 := by
  have hlt : p < u.team.nPes := hp
  have hlt' : p' < u.team.nPes := hp'
  simp only [peerWord, Cell.pSync.injEq, CentralDirectBarrier.member_inj]
  constructor
  · rintro ⟨hq, h⟩
    rcases Nat.mod_two_eq_zero_or_one s with hs | hs <;>
      rcases Nat.mod_two_eq_zero_or_one s' with hs' | hs' <;> rw [hs, hs'] at h ⊢ <;>
      simp only [zero_mul, one_mul, zero_add] at h <;> omega
  · rintro ⟨rfl, rfl, h⟩
    rw [h]
    exact ⟨rfl, rfl⟩

theorem root_word (i : ℕ) : .pSync u.team.peStart i = peerWord u 0 i 0 := by
  simp [peerWord]

theorem release_word (i : ℕ) : .pSync (u.team.member i) 0 = peerWord u i 0 0 := by
  simp [peerWord]

theorem is_member_zero : IsMember u 0 := u.team.pes_pos

theorem same_word (h : s % 2 = s' % 2) : peerWord u q p s = peerWord u q p s' := by
  rw [peerWord, peerWord, h]

theorem zero_stores (h : sequenceNumber σ q k % 2 = s % 2) :
    (sys u σ).StoresTo (peerWord u q p s) (.zero q p k) := by
  rw [← same_word h]
  exact ⟨_, rfl⟩

theorem publish_stores (h : sequenceNumber σ p k % 2 = s % 2) :
    (sys u σ).StoresTo (peerWord u q p s) (.publish p q k) := by
  rw [← same_word h]
  exact ⟨_, rfl⟩

theorem reset_stores (h : s % 2 = 0) : (sys u σ).StoresTo (peerWord u 0 p s) (.reset p k) := by
  have hword : peerWord u 0 p s = peerWord u 0 p 0 := same_word h
  rw [hword, ← root_word]
  exact ⟨_, rfl⟩

theorem clear_stores (h : s % 2 = 0) : (sys u σ).StoresTo (peerWord u q 0 s) (.clear q k) := by
  have hword : peerWord u q 0 s = peerWord u q 0 0 := same_word h
  rw [hword, ← release_word]
  exact ⟨_, rfl⟩

inductive PeerWriter (u : Setup) (σ : Schedule) (q p s : ℕ) : Event → Prop where
  | publish {k : ℕ} : sequenceNumber σ p k % 2 = s % 2 → PeerWriter u σ q p s (.publish p q k)
  | increment {k : ℕ} : sequenceNumber σ p k % 2 = s % 2 → PeerWriter u σ q p s (.increment p q k)
  | zero {k : ℕ} : PeerWriter u σ q p s (.zero q p k)
  | arrive {k : ℕ} : Direct u → q = 0 → s % 2 = 0 → PeerWriter u σ q p s (.arrive p k)
  | reset {k : ℕ} : PeerWriter u σ q p s (.reset p k)
  | release {i k : ℕ} : releaseTarget u k i = u.team.member q → p = 0 → s % 2 = 0 →
      PeerWriter u σ q p s (.release i k)
  | clear {k : ℕ} : PeerWriter u σ q p s (.clear q k)

theorem peer_writer (hp : IsMember u p) (hq : IsMember u q) (hpq : p ≠ q)
    (he : Occurs u σ e) (hw : (sys u σ).Writes (peerWord u q p s) e) : PeerWriter u σ q p s e := by
  have hroot : ∀ i, peerWord u 0 i 0 = peerWord u q p s → IsMember u i →
      q = 0 ∧ i = p ∧ s % 2 = 0 := by
    grind [peer_word_inj]
  replace hw : (action u σ e).target = some (peerWord u q p s) := hw.target
  cases e with
  | publish p' q' k =>
    obtain ⟨rfl, rfl, h⟩ := (peer_word_inj he.1 hp).mp (Option.some.inj hw)
    exact .publish h
  | increment p' q' k =>
    obtain ⟨rfl, rfl, h⟩ := (peer_word_inj he.1 hp).mp (Option.some.inj hw)
    exact .increment h
  | zero q' p' k =>
    obtain ⟨rfl, rfl, -⟩ := (peer_word_inj he.2.1 hp).mp (Option.some.inj hw)
    exact .zero
  | arrive i k =>
    grind [action, PeerWriter, Occurs, Effect.target, root_word, is_member_zero]
  | reset i k =>
    rw [action, root_word] at hw
    obtain ⟨-, rfl, -⟩ := hroot i (Option.some.inj hw) he.2.2.1
    exact .reset
  | wipe k | raise k | lower k =>
    grind [action, Effect.target, root_word, is_member_zero]
  | release i k =>
    grind [peerWord, action, PeerWriter, Effect.target, peer_word_inj, release_word]
  | clear i k =>
    rw [action, release_word] at hw
    obtain ⟨rfl, -, -⟩ := (peer_word_inj is_member_zero hp).mp (Option.some.inj hw)
    exact .clear
  | control p' q' k => cases Option.some.inj hw
  | transfer | payload | consume | fetch | seen | tally | quiet | unpack | collect | gather | await
  | ret =>
    cases hw

end Words

section Waits

variable {m : Cell → ℤ} {p q k s : ℕ}

theorem sequence_agree (h : ∀ k' < k, ∀ p, IsMember u p → σ.kind p k' = σ.kind 0 k')
    (hp : IsMember u p) : sequenceNumber σ p k = sequenceNumber σ 0 k := by
  induction k with
  | zero => rfl
  | succ k ih =>
    grind [sequenceNumber]

section LeftWord

variable (hc : RacyConsistent (sys u σ) (certificate u σ) init X m) (hp : IsMember u p)
  (hq : IsMember u q) (hpq : p ≠ q)
  (hkind : ∀ k' < k, ∀ p, IsMember u p → σ.kind p k' = σ.kind 0 k')
  (hpast : ∀ k' < k, .ret q k' ∈ X)
  (hnone : ∀ w ∈ X, owner w = p → (sys u σ).Writes (peerWord u q p s) w → stage w < k)
include hc hp hq hpq hkind hpast hnone

theorem addition_zeroed (ha : a ∈ X) (hadd : (sys u σ).AddsTo (peerWord u q p s) a) :
    ∃ w ∈ X, (sys u σ).StoresTo (peerWord u q p s) w ∧ Before (sys u σ) (certificate u σ) a w := by
  have hocc := hc.events a ha
  have hwriter := peer_writer hp hq hpq hocc (.inr hadd)
  have hadd' := hadd
  obtain ⟨v, hv⟩ := hadd'
  cases hwriter with
  | @increment k' hs =>
    have hk' : k' < k := hnone _ ha rfl (.inr hadd)
    have hmem : σ.kind q k' = some .mem := by
      rw [hkind k' hk' q hq, ← hkind k' hk' p hp]
      exact hocc.2.2.1
    grind [Before, RacyConsistent, zero_of_ret, increment_of_zero, zero_stores, sequence_agree]
  | arrive hd => simp only [sys, action, if_pos hd, reduceCtorEq] at hv
  | publish | zero | reset | release | clear => cases hv

theorem store_cleared (hw : w ∈ X) (hs : (sys u σ).StoresTo (peerWord u q p s) w) :
    (∀ v, (certificate u σ).val w v → v = 0) ∨ (∃ k' < k, w = .publish p q k') ∨
    ∃ w' ∈ X, w' ≠ w ∧ (sys u σ).StoresTo (peerWord u q p s) w' ∧
      Before (sys u σ) (certificate u σ) w w' := by
  have hocc := hc.events w hw
  have hwriter := peer_writer hp hq hpq hocc (.inl hs)
  cases hwriter with
  | @publish k' => exact .inr (.inl ⟨k', hnone _ hw rfl (.inl hs), rfl⟩)
  | zero | reset | clear => exact .inl fun v hv => hv
  | @arrive k' hd hq0 hpar =>
    subst hq0
    have hk' : k' < k := hnone _ hw rfl (.inl hs)
    have hbar : σ.kind 0 k' = some .barrier := by
      rw [← hkind k' hk' p hp]
      exact hocc.2.2.1
    have hgathered := gathered_of_ret hc.closed hbar (hpast k' hk')
    refine .inr (.inr ⟨.reset p k', reset_of_gathered hd hocc.1 hp hgathered, by simp, ?_, ?_⟩)
    · exact reset_stores hpar
    · exact fun Y hY h => arrive_of_reset hY h
  | @release i k' ht hp0 hpar =>
    subst hp0
    have hk' : k' < k := hnone _ hw rfl (.inl hs)
    have hbar : σ.kind q k' = some .barrier := by
      rw [hkind k' hk' q hq]
      exact hocc.2.2.1
    have hclear := clear_of_ret hc.closed hbar (pos_of_ne_zero hpq.symm) (hpast k' hk')
    refine .inr (.inr ⟨.clear q k', hclear, by simp, clear_stores hpar, ?_⟩)
    exact fun Y hY h => release_of_clear hY ⟨hocc.1, hocc.2.1⟩ ht h
  | increment =>
    obtain ⟨f, hf⟩ := hs
    cases hf

theorem left_word : m (peerWord u q p s) = 0 ∨
    ∃ k' < k, Publishes σ 0 k' ∧ sequenceNumber σ 0 k' % 2 = s % 2 ∧
      m (peerWord u q p s) = leftCount σ k' ∧
      ∀ k'', k' < k'' → k'' < k → Publishes σ 0 k'' → sequenceNumber σ 0 k'' % 2 ≠ s % 2 := by
  have hseq : ∀ k' < k, ∀ p, IsMember u p → sequenceNumber σ p k' = sequenceNumber σ 0 k' :=
    fun k' hk' p hp => sequence_agree (fun j hj => hkind j (hj.trans hk')) hp
  have hadds := fun a ha hadd =>
    addition_zeroed (a := a) hc hp hq hpq hkind hpast hnone ha hadd
  rcases hc.read_stored hadds with ⟨hinit, -⟩ | ⟨w, hwX, hstore, hval, hmax⟩
  · exact .inl hinit
  · have hcleared := store_cleared hc hp hq hpq hkind hpast hnone hwX hstore
    rcases hcleared with hzero | ⟨k', hk', rfl⟩ | ⟨w', hw', hne, hs', hb⟩
    · exact .inl (hzero _ hval)
    · right
      have hocc := hc.events _ hwX
      have hpub : Publishes σ p k' := hocc.2.2.imp And.left And.left
      have hpar := (peer_word_inj hp hp).mp (Effect.store.inj hstore.choose_spec).1
      refine ⟨k', hk', ?_, ?_, ?_, ?_⟩
      · rwa [Publishes, ← hkind k' hk' p hp]
      · rw [← hseq k' hk' p hp, hpar.2.2]
      · rw [leftCount, ← hseq k' hk' p hp]
        exact hval
      · -- a later count would have been stored over this one
        intro k'' hlt hk'' hV hs''
        have hVq : Publishes σ q k'' := by rwa [Publishes, hkind k'' hk'' q hq]
        have hbefore : Before (sys u σ) (certificate u σ) (.publish p q k') (.publish p q k'') :=
          fun Y hY h => publish_of_ret hY hpub hq (ret_of_later hY h hlt)
        grind [RacyConsistent, published_of_ret, publish_stores]
    · exact absurd (hmax w' hw' hs' hb) hne

end LeftWord

theorem left_count_ne_one {par : ℕ} (hclean : ∀ j ≤ k, Clean u σ j) (h2 : 2 ≤ u.team.nPes)
    (hk' : k' < k) (hV : Publishes σ 0 k') (hs : sequenceNumber σ 0 k' % 2 = par)
    (hno : ∀ j, k' < j → j < k → Publishes σ 0 j → sequenceNumber σ 0 j % 2 ≠ par)
    (hk : (σ.kind 0 k = some .mem ∧ sequenceNumber σ 0 k % 2 = par) ∨
      (σ.kind 0 k = some .barrier ∧ par = 0)) : leftCount σ k' ≠ 1 := by
  classical
  -- the first stage after `k'` on the same words is the one that finds its counts
  have hon : OnWords σ par k := by
    grind [OnWords, counted]
  have hex : ∃ j, k' < j ∧ OnWords σ par j := ⟨k, hk', hon⟩
  obtain ⟨hlt, hfirst⟩ := Nat.find_spec hex
  have hle : Nat.find hex ≤ k := Nat.find_min' hex ⟨hk', hon⟩
  have hleft : LeftCount σ par k' (Nat.find hex) :=
    ⟨hlt, hV, hs, fun j hj hjlt h => Nat.find_min hex hjlt ⟨hj, h⟩⟩
  generalize Nat.find hex = j at hlt hfirst hle hleft
  have hbarrier : σ.kind 0 j = some .barrier → par = 0 → leftCount σ k' ≠ 1 := by
    intro hb hpar
    subst hpar
    by_cases hd : Direct u
    · exact (hclean j hle).direct h2 hd hb k' hleft
    · have := (hclean j hle).atomic hd hb k' hleft
      simp only [Direct] at hd
      omega
  grind [Clean, OnWords, publishes_or_mem]

inductive Signal (u : Setup) (σ : Schedule) (q p : ℕ) : Event → Prop where
  | publish {k : ℕ} : Publishes σ p k → Signal u σ q p (.publish p q k)
  | increment {k : ℕ} : σ.kind p k = some .mem → Signal u σ q p (.increment p q k)
  | arrive {k : ℕ} : σ.kind p k = some .barrier → q = 0 → Signal u σ q p (.arrive p k)
  | release {i k : ℕ} : σ.kind p k = some .barrier → p = 0 → 0 < i → IsMember u i →
      releaseTarget u k i = u.team.member q → Signal u σ q p (.release i k)

theorem signal_of_writes (hp : IsMember u p) (hq : IsMember u q) (hpq : p ≠ q)
    (hocc : Occurs u σ w) (hw : (sys u σ).Writes (peerWord u q p s) w) (ho : owner w = p) :
    Signal u σ q p w := by
  cases peer_writer hp hq hpq hocc hw with
  | publish => exact .publish (hocc.2.2.imp And.left And.left)
  | increment => exact .increment hocc.2.2.1
  | arrive _ hq0 => exact .arrive hocc.2.2.1 hq0
  | release ht hp0 => exact .release (hp0 ▸ hocc.2.2.1) hp0 hocc.1 hocc.2.1 ht
  | zero | clear => exact absurd ho.symm hpq
  | reset => exact absurd ho hocc.2.1.ne

theorem none_signalled (hc : RacyConsistent (sys u σ) (certificate u σ) init X m)
    (hp : IsMember u p) (hq : IsMember u q) (hpq : p ≠ q) (hstay : .ret p k ∉ X)
    (hnow : ∀ w ∈ X, stage w = k → ¬ Signal u σ q p w) :
    ∀ w ∈ X, owner w = p → (sys u σ).Writes (peerWord u q p s) w → stage w < k := by
  intro w hw ho hwrites
  by_contra hge
  rcases Nat.lt_or_eq_of_le (Nat.le_of_not_lt hge) with hlt | heq
  · exact hstay (ho ▸ ret_of_later hc.closed hw hlt)
  · exact hnow w hw heq.symm (signal_of_writes hp hq hpq (hc.events w hw) hwrites ho)

theorem release_target_inj {i j : ℕ} (hi : 0 < i) (hj : 0 < j)
    (h : releaseTarget u k i = releaseTarget u k j) : i = j := by
  by_cases hd : Direct u
  · simp only [releaseTarget, if_pos hd, add_assoc] at h
    have hW := u.wf_pos k
    have hM : u.wfCount k ≤ u.wfCount k * u.team.stride := Nat.le_mul_of_pos_right _ u.team.stride_pos
    have hsum := add_left_cancel (add_left_cancel h)
    have hlt : ∀ n, n % u.wfCount k < u.wfCount k * u.team.stride :=
      fun n => (Nat.mod_lt n hW).trans_le hM
    -- wavefront and turn of a release are remainder and quotient of its offset
    have hrem := congrArg (· % (u.wfCount k * u.team.stride)) hsum
    have hquot := congrArg (· / (u.wfCount k * u.team.stride)) hsum
    simp only [Nat.add_mul_mod_self_right, Nat.mod_eq_of_lt (hlt _)] at hrem
    simp only [Nat.add_mul_div_right _ _ (hW.trans_le hM), Nat.div_eq_of_lt (hlt _), zero_add]
      at hquot
    have hpred : i - 1 = j - 1 := by
      rw [← Nat.mod_add_div (i - 1) (u.wfCount k),
        ← Nat.mod_add_div (j - 1) (u.wfCount k), hrem, hquot]
    omega
  · simpa [releaseTarget, hd] using h

theorem sequence_le (h : k' ≤ k) : sequenceNumber σ p k' ≤ sequenceNumber σ p k := by
  induction h with
  | refl => exact le_refl _
  | step _ ih => exact ih.trans (Nat.le_add_right _ _)

theorem sequence_lt (h : k' < k) (hV : Publishes σ p k') :
    sequenceNumber σ p k' < sequenceNumber σ p k := by
  apply lt_of_lt_of_le _ (sequence_le h)
  rcases hV with hk | hk <;> simp [sequenceNumber, hk, counted]

section Matched

variable (hc : RacyConsistent (sys u σ) (certificate u σ) init X m) (hclean : ∀ j ≤ k, Clean u σ j)
  (hp : IsMember u p) (hq : IsMember u q) (hpq : p ≠ q)

include hpq hp hq in
theorem two_members : 2 ≤ u.team.nPes := by
  have hp' : p < u.team.nPes := hp
  have hq' : q < u.team.nPes := hq
  omega

include hclean in
theorem kind_agree (hp : IsMember u p) : σ.kind p k = σ.kind 0 k := (hclean k le_rfl).agree p hp

include hclean in
theorem clean_sequence (hp : IsMember u p) : sequenceNumber σ p k = sequenceNumber σ 0 k :=
  sequence_agree (fun j hj => (hclean j hj.le).agree) hp

include hc hclean hp hq hpq

theorem signalled_of_one (hpast : ∀ j < k, .ret q j ∈ X) (hstay : .ret p k ∉ X)
    (hk : (σ.kind 0 k = some .mem ∧ sequenceNumber σ 0 k % 2 = s % 2) ∨
      (σ.kind 0 k = some .barrier ∧ s % 2 = 0))
    (hone : m (peerWord u q p s) = 1) : ∃ w ∈ X, stage w = k ∧ Signal u σ q p w := by
  by_contra hnone
  push Not at hnone
  rcases left_word hc hp hq hpq (fun j hj => (hclean j hj.le).agree) hpast
    (none_signalled hc hp hq hpq hstay hnone) with h0 | ⟨k', hk', hV, hs, hval, hno⟩
  · rw [h0] at hone
    exact zero_ne_one hone
  · have hcount := left_count_ne_one hclean (two_members hp hq hpq) hk' hV hs hno hk
    rw [hval] at hone
    exact hcount (by exact_mod_cast hone)

theorem tally_matched (hk : σ.kind 0 k = some .mem) (hpast : ∀ j < k, .ret q j ∈ X)
    (hg : guard u σ (.tally q p k) m) : .increment p q k ∈ X := by
  have hkp : σ.kind p k = some .mem := (kind_agree hclean hp).trans hk
  by_cases hstay : .ret p k ∈ X
  · exact increment_of_ret hc.closed hkp hq hstay
  · obtain ⟨w, hw, hstage, hsig⟩ := signalled_of_one hc hclean hp hq hpq hpast hstay
      (.inl ⟨hk, by rw [clean_sequence hclean hq]⟩) hg
    cases hsig with
    | increment => exact hstage ▸ hw
    | publish hV => subst hstage; rcases hV with h | h <;> simp [stage, h] at hkp
    | arrive hb | release hb => subst hstage; simp [stage, hb] at hkp

theorem seen_matched (hV : Publishes σ 0 k) (hpast : ∀ j < k, .ret q j ∈ X)
    (hg : guard u σ (.seen q p k) m) : .publish p q k ∈ X := by
  have hVp : Publishes σ p k := by rwa [Publishes, kind_agree hclean hp]
  by_contra hnot
  have hstay : .ret p k ∉ X := fun h => hnot (publish_of_ret hc.closed hVp hq h)
  have hnow : ∀ w ∈ X, stage w = k → ¬ Signal u σ q p w := by
    grind [Signal, Publishes, stage]
  have hle : (completionCount (sequenceNumber σ q k) : ℤ) ≤
    m (peerWord u q p (sequenceNumber σ q k)) := hg
  rcases left_word hc hp hq hpq (fun j hj => (hclean j hj.le).agree) hpast
    (none_signalled hc hp hq hpq hstay hnow) with h0 | ⟨k', hk', hV', hs, hval, -⟩
  · rw [h0, completionCount] at hle
    omega
  · have hlt := sequence_lt hk' hV'
    grind [completionCount, leftCount, clean_sequence]

end Matched

section Barrier

variable (hc : RacyConsistent (sys u σ) (certificate u σ) init X m) (hclean : ∀ j ≤ k, Clean u σ j)
  {i : ℕ} (hi : 0 < i) (hm : IsMember u i) (hk : σ.kind 0 k = some .barrier)

include hc hclean hi hm hk

theorem collect_matched (hpast : ∀ j < k, .ret 0 j ∈ X) (hg : guard u σ (.collect i k) m) :
    .arrive i k ∈ X := by
  have hki : σ.kind i k = some .barrier := (kind_agree hclean hm).trans hk
  by_cases hstay : .ret i k ∈ X
  · exact arrive_of_gathered hc.closed hi hm (gathered_of_ret hc.closed hki hstay)
  · have hone : m (peerWord u 0 i 0) = 1 := root_word (u := u) i ▸ hg
    obtain ⟨w, hw, hstage, hsig⟩ := signalled_of_one hc hclean hm is_member_zero hi.ne' hpast
      hstay (.inr ⟨hk, rfl⟩) hone
    cases hsig with
    | arrive => exact hstage ▸ hw
    | release _ h0 => exact absurd h0 hi.ne'
    | publish hV => subst hstage; rcases hV with h | h <;> simp [stage, h] at hki
    | increment h => subst hstage; simp [stage, h] at hki

theorem await_matched (hpast : ∀ j < k, .ret i j ∈ X) (hg : guard u σ (.await i k) m)
    (ha : waitsFor u (.await i k) a) : a ∈ X := by
  by_cases hstay : .ret 0 k ∈ X
  · have hlower := lower_of_ret hc.closed hk hstay
    grind [waitsFor, RacyConsistent, gathered_of_lower, release_of_lower]
  · have hone : m (peerWord u i 0 0) = 1 := release_word (u := u) i ▸ hg
    obtain ⟨w, hw, hstage, hsig⟩ := signalled_of_one hc hclean is_member_zero hm hi.ne hpast
      hstay (.inr ⟨hk, rfl⟩) hone
    cases hsig with
    | @release j _ _ _ hj hmj ht =>
      subst hstage
      rcases ha with ha | ⟨j', hj', -, ht', rfl⟩
      · exact of_within hc.closed hw ha
      · rwa [release_target_inj hj' hj (ht'.trans ht.symm)]
    | arrive _ h0 => exact absurd h0 hi.ne'
    | publish hV => subst hstage; rcases hV with h | h <;> simp [stage, h] at hk
    | increment h => subst hstage; simp [stage, h] at hk

end Barrier

theorem control_of_ret (hX : Closed (sys u σ) (certificate u σ) X) (hk : σ.kind p k = some .get)
    (hq : IsMember u q) (h : .ret p k ∈ X) : .control p q k ∈ X := by
  have hconsume : .consume p q k ∈ X := by
    apply of_within hX (publish_of_ret hX (.inr hk) hq h)
    simp [within, hk]
  apply of_within hX hconsume
  exact mem_peers (f := fun q => .control p q k) hq

theorem consume_of_ret (hX : Closed (sys u σ) (certificate u σ) X) (hk : σ.kind q k = some .get)
    (hp : IsMember u p) (h : .ret q k ∈ X) : .consume q p k ∈ X := by
  apply of_within hX (publish_of_ret hX (.inr hk) hp h)
  simp [within, hk]

theorem seq_bits_msg (sn d : ℕ) : seqBits (ctrlMsg sn d) = seqMask (sn + 1) := by
  simp only [seqBits, ctrlMsg, seqMask]
  omega

theorem ctrl_writer (hw : (sys u σ).Writes (ctrlWord u q p) e) :
    ∃ k, e = .control p q k := by
  replace hw : (action u σ e).target = some (ctrlWord u q p) := hw.target
  cases e with
  | control p' q' k =>
    grind [GdaAlltoallSync.ctrlWord, GdaAlltoallSync.action, MatchedPrograms.Effect.target,
      CentralDirectBarrier.member_inj]
  | arrive i k =>
    grind [ctrlWord, action, Effect.target]
  | _ => cases hw

theorem consume_matched (hc : RacyConsistent (sys u σ) (certificate u σ) init X m)
    (hclean : ∀ j ≤ k, Clean u σ j) (hp : IsMember u p) (hq : IsMember u q) (hpq : p ≠ q)
    (hk : σ.kind 0 k = some .get) (hpast : ∀ j < k, .ret q j ∈ X)
    (hg : guard u σ (.consume q p k) m) : .control p q k ∈ X := by
  have hkp : σ.kind p k = some .get := (kind_agree hclean hp).trans hk
  by_contra hnot
  have hstay : .ret p k ∉ X := fun h => hnot (control_of_ret hc.closed hkp hq h)
  have hbits : seqBits (m (ctrlWord u q p)) = seqMask (sequenceNumber σ 0 k + 1) := by
    rw [← clean_sequence hclean hq]
    exact hg
  -- a message in the word is of an earlier stage, and `q` has consumed all of those
  have hearlier : ∀ j, .control p q j ∈ X → j < k := by
    intro j hj
    by_contra hge
    rcases Nat.lt_or_eq_of_le (Nat.le_of_not_lt hge) with hlt | rfl
    · exact hstay (ret_of_later hc.closed hj hlt)
    · exact hnot hj
  have hconsumed : ∀ j < k, σ.kind 0 j = some .get → .control p q j ∈ X := by
    intro j hj hget
    have hgq : σ.kind q j = some .get := ((hclean j hj.le).agree q hq).trans hget
    exact (hc.closed _ (consume_of_ret hc.closed hgq hp (hpast j hj))).2 _ ⟨hpq, rfl⟩
  have hstores : ∀ j, (sys u σ).StoresTo (ctrlWord u q p) (.control p q j) := fun j => ⟨_, rfl⟩
  obtain ⟨hfresh, hfirst⟩ := (hclean k le_rfl).get (two_members hp hq hpq) hk
  have hadds : ∀ a ∈ X, ¬ (sys u σ).AddsTo (ctrlWord u q p) a := by
    intro a _ hadd
    obtain ⟨j, rfl⟩ := ctrl_writer (.inr hadd)
    obtain ⟨v, hv⟩ := hadd
    cases hv
  rcases hc.read_stored fun a ha h => absurd h (hadds a ha) with
    ⟨hzero, hlast⟩ | ⟨w, hwX, hstore, hmsg, hmax⟩
  · grind [seqBits, init, syncValue]
  · obtain ⟨j, rfl⟩ := ctrl_writer (.inl hstore)
    have hj := hearlier j hwX
    have hgj : σ.kind p j = some .get := (hc.events _ hwX).2.2.1
    have hgj0 : σ.kind 0 j = some .get := ((hclean j hj.le).agree p hp) ▸ hgj
    have hseq : sequenceNumber σ p j = sequenceNumber σ 0 j :=
      clean_sequence (fun i hi => hclean i (hi.trans hj.le)) hp
    change m (ctrlWord u q p) = ctrlMsg (sequenceNumber σ p j) (σ.displ p q j) at hmsg
    rw [hmsg, seq_bits_msg, hseq] at hbits
    apply hfresh j hj hgj0 _ (by exact_mod_cast hbits)
    intro j' hlt hj' hget
    have hbefore : Before (sys u σ) (certificate u σ) (.control p q j) (.control p q j') :=
      fun Y hY h => control_of_ret hY hgj hq (ret_of_later hY h hlt)
    cases hmax _ (hconsumed j' hj' hget) (hstores j') hbefore
    exact lt_irrefl _ hlt

inductive RootWriter (σ : Schedule) : Event → Prop where
  | publish {k : ℕ} : sequenceNumber σ 0 k % 2 = 0 → RootWriter σ (.publish 0 0 k)
  | increment {k : ℕ} : sequenceNumber σ 0 k % 2 = 0 → RootWriter σ (.increment 0 0 k)
  | zero {k : ℕ} : RootWriter σ (.zero 0 0 k)
  | arrive {i k : ℕ} : RootWriter σ (.arrive i k)
  | wipe {k : ℕ} : RootWriter σ (.wipe k)
  | raise {k : ℕ} : RootWriter σ (.raise k)
  | lower {k : ℕ} : RootWriter σ (.lower k)

theorem root_writer (hd : ¬ Direct u) (he : Occurs u σ e)
    (hw : (sys u σ).Writes (peerWord u 0 0 0) e) : RootWriter σ e := by
  replace hw : (action u σ e).target = some (peerWord u 0 0 0) := hw.target
  cases e with
  | publish p' q' k =>
    obtain ⟨rfl, rfl, h⟩ := (peer_word_inj he.1 is_member_zero).mp (Option.some.inj hw)
    exact .publish h
  | increment p' q' k =>
    obtain ⟨rfl, rfl, h⟩ := (peer_word_inj he.1 is_member_zero).mp (Option.some.inj hw)
    exact .increment h
  | zero q' p' k =>
    obtain ⟨rfl, rfl, -⟩ := (peer_word_inj he.2.1 is_member_zero).mp (Option.some.inj hw)
    exact .zero
  | reset i k => exact absurd he.1 hd
  | release i k =>
    grind [action, Occurs, Effect.target, releaseTarget, peer_word_inj, release_word,
      is_member_zero]
  | clear i k =>
    grind [action, Occurs, Effect.target, peer_word_inj, release_word, is_member_zero]
  | arrive => exact .arrive
  | wipe => exact .wipe
  | raise => exact .raise
  | lower => exact .lower
  | control p' q' k => cases Option.some.inj hw
  | transfer | payload | consume | fetch | seen | tally | quiet | unpack | collect | gather | await
  | ret =>
    cases hw

section Gather

variable (hc : RacyConsistent (sys u σ) (certificate u σ) init X m) (hclean : ∀ j ≤ k, Clean u σ j)
  (hd : ¬ Direct u) (hk : σ.kind 0 k = some .barrier) (hX : .gather k ∉ X)
  (hpast : ∀ j < k, .ret 0 j ∈ X)

include hc hclean hd hk hX

omit hclean in
theorem root_before (hw : w ∈ X) (ho : owner w = 0)
    (hstage : stage w = k → .gather k ∈ X) : stage w < k := by
  grind [RacyConsistent, ret_of_later, wipe_of_gathered, gather_of_wipe, gathered_of_ret]

include hpast

theorem counted_arrival (ha : a ∈ X) (hadd : (sys u σ).AddsTo (peerWord u 0 0 0) a)
    (hlater : ∀ w ∈ X, (sys u σ).StoresTo (peerWord u 0 0 0) w →
      ¬ Before (sys u σ) (certificate u σ) a w) : ∃ i, 0 < i ∧ IsMember u i ∧ a = .arrive i k := by
  have hocc := hc.events a ha
  have hwriter := root_writer hd hocc (.inr hadd)
  obtain ⟨v, hv⟩ := hadd
  cases hwriter with
  | @increment j hs =>
    have hmem : σ.kind 0 j = some .mem := hocc.2.2.1
    have hj : j < k := by
      apply root_before hc hd hk hX ha rfl
      rintro rfl
      simp [stage, hmem] at hk
    have hstores : (sys u σ).StoresTo (peerWord u 0 0 0) (.zero 0 0 j) := by
      refine ⟨fun _ => syncValue, congrArg (Effect.store · _) ?_⟩
      rw [peer_word_inj is_member_zero is_member_zero]
      exact ⟨rfl, rfl, hs⟩
    grind [Before, RacyConsistent, zero_of_ret, increment_of_zero, is_member_zero]
  | @arrive i j =>
    refine ⟨i, hocc.1, hocc.2.1, ?_⟩
    rcases lt_trichotomy j k with hj | rfl | hj
    · have hbar : σ.kind 0 j = some .barrier := by
        rw [← (hclean j hj.le).agree i hocc.2.1]
        exact hocc.2.2.1
      have hwipe := wipe_of_gathered hc.closed hd (gathered_of_ret hc.closed hbar (hpast j hj))
      have hstores : (sys u σ).StoresTo (peerWord u 0 0 0) (.wipe j) :=
        ⟨fun _ => syncValue, congrArg (Effect.store · _) (root_word 0)⟩
      apply absurd _ (hlater _ hwipe hstores)
      exact fun Y hY h => arrive_of_wipe hY hocc.1 hocc.2.1 h
    · rfl
    · have hbar : σ.kind i k = some .barrier := (kind_agree hclean hocc.2.1).trans hk
      have hgathered := gathered_of_ret hc.closed hbar (ret_of_later hc.closed ha hj)
      exact absurd (gather_of_wipe hc.closed (wipe_of_gathered hc.closed hd hgathered)) hX
  | publish | zero | wipe | raise | lower => cases hv

theorem root_left_count {j : ℕ} (hpub : .publish 0 0 j ∈ X) (hs : sequenceNumber σ 0 j % 2 = 0)
    (hmax : ∀ w ∈ X, (sys u σ).StoresTo (peerWord u 0 0 0) w →
      Before (sys u σ) (certificate u σ) (.publish 0 0 j) w → w = .publish 0 0 j) :
    LeftCount σ 0 j k := by
  have hV : Publishes σ 0 j := (hc.events _ hpub).2.2.imp And.left And.left
  have hj : j < k := by
    apply root_before hc hd hk hX hpub rfl
    rintro rfl
    rcases hV with h | h <;> simp [stage, h] at hk
  refine ⟨hj, hV, hs, fun j' hlt hj' hon => ?_⟩
  -- a stage in between has stored to the word again
  have hover : ∀ w ∈ X, (sys u σ).StoresTo (peerWord u 0 0 0) w → owner w = 0 → stage w = j' →
      w = .publish 0 0 j := by
    grind [Before, ret_of_later, publish_of_ret, is_member_zero]
  have hret := hpast j' hj'
  rcases hon with ⟨hcount, hpar⟩ | ⟨hb, -⟩
  · rcases publishes_or_mem hcount with hV' | hmem
    · have hagain := publish_of_ret hc.closed hV' is_member_zero hret
      cases hover _ hagain (publish_stores hpar) rfl rfl
      exact lt_irrefl _ hlt
    · cases hover _ (zero_of_ret hc.closed hmem is_member_zero hret) (zero_stores hpar) rfl rfl
  · cases hover _ (lower_of_ret hc.closed hb hret)
      ⟨fun _ => syncValue, congrArg (Effect.store · _) (root_word 0)⟩ rfl rfl

theorem root_base {w? : Option Event} {b : ℤ}
    (hlast : LatestStore (sys u σ) (certificate u σ) X (peerWord u 0 0 0) w?)
    (hbase : LeavesBase (certificate u σ) (init (peerWord u 0 0 0)) w? b) :
    b = 0 ∨ ((u.team.nPes - 1 : ℕ) : ℤ) < b := by
  cases w? with
  | none => exact .inl hbase
  | some w =>
    obtain ⟨hwX, hstore, hmax⟩ := hlast
    cases root_writer hd (hc.events w hwX) (.inl hstore) with
    | @publish j hs =>
      right
      have hleft := root_left_count hc hclean hd hk hX hpast hwX hs hmax
      have hcount := (hclean k le_rfl).atomic hd hk j hleft
      have hb : b = leftCount σ j := hbase
      rw [hb]
      exact_mod_cast hcount
    | zero | wipe | lower => exact .inl hbase
    | @raise j =>
      have hwipe : .wipe j ∈ X := of_within hc.closed hwX (by simp [within])
      have hj : j < k := by
        apply root_before hc hd hk hX hwX rfl
        rintro rfl
        exact gather_of_wipe hc.closed hwipe
      have hbar : σ.kind 0 j = some .barrier := (hc.events _ hwX).2.1
      cases hmax _ (lower_of_ret hc.closed hbar (hpast j hj))
        ⟨fun _ => syncValue, congrArg (Effect.store · _) (root_word 0)⟩
        fun Y hY h => gathered_of_lower hY h _ (by simp [gathered, hd])
    | increment =>
      obtain ⟨f, hf⟩ := hstore
      cases hf
    | arrive =>
      obtain ⟨f, hf⟩ := hstore
      simp only [sys, action, if_neg hd, reduceCtorEq] at hf

theorem gather_matched (hg : guard u σ (.gather k) m) {i : ℕ} (hi : 0 < i) (hm : IsMember u i) :
    .arrive i k ∈ X := by
  by_contra hnot
  obtain ⟨w?, b, l, hlast, hbase, hnd, hl, hval⟩ := hc.contents (peerWord u 0 0 0)
  have harr : ∀ a ∈ l, ∃ i, 0 < i ∧ IsMember u i ∧ a = .arrive i k := by
    grind [counted_arrival]
  have hsum : (l.map fun a => ((sys u σ).action a).amount).sum = l.length := by
    rw [map_congr_left (g := fun _ => flagVal)]
    · simp [flagVal]
    · intro a ha
      obtain ⟨i, -, -, rfl⟩ := harr a ha
      simp [sys, action, hd, Effect.amount]
  -- at most the other arrivals are in the word
  have hlen : l.length < u.team.nPes - 1 := by
    have hsub : .arrive i k :: l ⊆ others u fun i => .arrive i k := by
      grind [mem_others]
    have hnodup : (.arrive i k :: l).Nodup := nodup_cons.mpr ⟨fun h => hnot (hl _ h).1, hnd⟩
    have hle := (hnodup.subperm hsub).length_le
    simp only [length_cons, others, length_map, length_range] at hle
    omega
  have hread : m (peerWord u 0 0 0) = ((u.team.nPes - 1 : ℕ) : ℤ) := root_word (u := u) 0 ▸ hg
  rw [hread, hsum] at hval
  rcases root_base hc hclean hd hk hX hpast hlast hbase with hb | hb <;> omega

end Gather

end Waits

theorem sound : RacySound (sys u σ) (certificate u σ) (CleanSoFar u σ) init where
  matched X m e hc he hX hr hg hclean a ha := by
    have hpast : ∀ j < stage e, .ret (owner e) j ∈ X := fun j hj => ready_past hc.closed hr hj
    have hkind : ∀ {p k κ}, IsMember u p → Runs σ p k κ → Clean u σ k → σ.kind 0 k = some κ :=
      fun hp hruns hk => (hk.agree _ hp).symm.trans hruns.1
    cases e with
    | consume q p k =>
      obtain ⟨hpq, rfl⟩ := ha
      exact consume_matched hc hclean he.2.1 he.1 hpq (hkind he.1 he.2.2 (hclean k le_rfl)) hpast hg
    | seen q p k =>
      obtain ⟨hpq, rfl⟩ := ha
      have hV : Publishes σ 0 k :=
        he.2.2.imp (hkind he.1 · (hclean k le_rfl)) (hkind he.1 · (hclean k le_rfl))
      exact seen_matched hc hclean he.2.1 he.1 hpq hV hpast hg
    | tally q p k =>
      obtain ⟨hpq, rfl⟩ := ha
      exact tally_matched hc hclean he.2.1 he.1 hpq (hkind he.1 he.2.2 (hclean k le_rfl)) hpast hg
    | collect i k =>
      obtain rfl : a = .arrive i k := ha
      exact collect_matched hc hclean he.2.1 he.2.2.1 he.2.2.2.1 hpast hg
    | gather k =>
      obtain ⟨i, hi, hm, rfl⟩ := ha
      exact gather_matched hc hclean he.1 he.2.1 hX hpast hg hi hm
    | await i k =>
      have hk := hkind he.2.1 he.2.2 (hclean k le_rfl)
      exact await_matched hc hclean he.1 he.2.1 hk hpast hg ha
    | _ => exact ha.elim
  valued m e c f he hact := by
    cases e with
    | control | publish | zero | reset | wipe | lower | clear =>
      cases hact
      rfl
    | _ => trivial

theorem landed_of_ret (hX : Closed (sys u σ) (certificate u σ) X) {p q k : ℕ} (hclean : Clean u σ k)
    (hp : IsMember u p) (hocc : Occurs u σ (.ret q k)) (h : .ret q k ∈ X) : Landed σ p q k X := by
  have hkq := hclean.agree q hocc.1
  have hkp := hclean.agree p hp
  cases hkind : σ.kind q k with
  | none => simp [Occurs, Runs, hkind] at hocc
  | some κ =>
    have hpk : σ.kind p k = some κ := by rw [hkp, ← hkq, hkind]
    simp only [Landed, hkind]
    cases κ with
    | barrier =>
      have hgathered := gathered_of_ret hX hkind h
      by_cases hp0 : p = 0
      · exact hp0 ▸ root_transfer_of_gathered hX hgathered
      · have harrive := arrive_of_gathered hX (pos_of_ne_zero hp0) hp hgathered
        exact of_within hX harrive (by simp [within])
    | copy =>
      refine ⟨?_, unpack_of_ret hX hkind hp h⟩
      apply of_within hX (published_of_ret hX (.inl hkind) hp h)
      simp [within, hpk]
    | mem =>
      apply of_within hX (increment_of_zero hX hkind (zero_of_ret hX hkind hp h))
      simp [within]
    | get =>
      have hconsume := consume_of_ret hX hkind hp h
      constructor
      · by_cases hpq : p = q
        · subst hpq
          exact control_of_ret hX hkind hp h
        · exact (hX _ hconsume).2 _ ⟨hpq, rfl⟩
      · apply of_within hX (quiet_of_ret hX (.inr hkind) hp h)
        simp [within, hkind]

end Programs

def Returned (u : Setup) (calls : List Call) (q c : ℕ) (X : Set Event) : Prop :=
  .ret q ((program u (calls.take (c + 1)) q).length - 1) ∈ X

def InCall (u : Setup) (calls : List Call) (q c k : ℕ) : Prop :=
  (program u (calls.take c) q).length ≤ k ∧ k < (program u (calls.take (c + 1)) q).length

instance (l : List Event) (a : Event) : Decidable (a ∈ {a : Event | a ∈ l}) :=
  inferInstanceAs (Decidable (a ∈ l))

instance (σ : Schedule) (p q k : ℕ) (l : List Event) : Decidable (Landed σ p q k {a | a ∈ l}) := by
  unfold Landed
  split <;> infer_instance

instance (u : Setup) (calls : List Call) (q c : ℕ) (l : List Event) :
    Decidable (Returned u calls q c {a | a ∈ l}) := inferInstanceAs (Decidable (_ ∈ l))

instance (u : Setup) (calls : List Call) (q c k : ℕ) : Decidable (InCall u calls q c k) :=
  inferInstanceAs (Decidable (_ ∧ _))

/-- No member returns from a call before the blocks of the call have landed, and no wait is
satisfied before the signal of its own stage. -/
structure CallsKept (u : Setup) (calls : List Call) (X : Set Event) : Prop where
  landed : ∀ q c, Returned u calls q c X → ∀ k, InCall u calls q c k →
    ∀ p, IsMember u p → Landed (schedule u calls) p q k X
  matched : ∀ e ∈ X, ∀ a, waitsFor u e a → a ∈ X

theorem clean_calls_kept (u : Setup) (calls : List Call) {X : Set Event} {m : Cell → ℤ}
    (h : (sys u (schedule u calls)).Run (CleanSoFar u (schedule u calls)) init X m) :
    CallsKept u calls X := by
  have hc := run_racy sound h
  constructor
  · intro q c hret k hk p hp
    have hkle : k ≤ (program u (calls.take (c + 1)) q).length - 1 := by
      have := hk.2
      omega
    have hclean := h.forall_fired (P := fun e => ∀ j ≤ stage e, Clean u (schedule u calls) j)
      (fun _ _ _ hok => hok) _ hret
    have hretk : .ret q k ∈ X := by
      obtain ⟨d, hd⟩ := Nat.exists_eq_add_of_le hkle
      rw [Returned, hd] at hret
      exact ret_of_previous hc.closed d hret
    exact landed_of_ret hc.closed (hclean k hkle) hp (hc.events _ hretk) hretk
  · exact fun e he => (hc.closed e he).2

section Release

variable (u : Setup) (calls : List Call)

/-- The part of the slice of `q` that it gets from `p`. -/
def recvCount (q p k : ℕ) : ℕ :=
  match (program u calls q)[k]? with
  | some (_, .alltoallv wgId wgCount _ layout) =>
    splitCount ((layout q).destNelems p) wgId wgCount
  | _ => 0

/-- The GET of `q` from the source of `p` is posted, and has not fetched its data. -/
def Reading (X : Set Event) (q p k : ℕ) : Prop :=
  .consume q p k ∈ X ∧ recvCount u calls q p k ≠ 0 ∧ .fetch q p k ∉ X

/-- A completion count behind a GET takes effect after the data has been fetched. -/
def FetchedFirst (X : Set Event) (m : Cell → ℤ) (e : Event) : Prop :=
  CleanSoFar u (schedule u calls) X m e ∧ ∀ q p k, e = .publish q p k →
    (schedule u calls).kind q k = some .get → recvCount u calls q p k ≠ 0 → .fetch q p k ∈ X

variable {u calls} {X : Set Event} {m : Cell → ℤ} {p k : ℕ}

theorem fetched_released
    (h : (sys u (schedule u calls)).Run (FetchedFirst u calls) init X m)
    (hk : (schedule u calls).kind p k = some .get) (hret : .ret p k ∈ X) :
    ∀ q, ¬ Reading u calls X q p k := by
  rintro q ⟨hconsume, hcount, hfetch⟩
  have hc := run_racy sound (h.mono fun _ _ _ _ _ hok => hok.1)
  obtain ⟨hq, -, hget, -⟩ := hc.events _ hconsume
  have hpublish : .publish q p k ∈ X := published_of_ret hc.closed (.inr hk) hq hret
  obtain ⟨Y, _, hY, hok⟩ := h.ok_of_mem _ hpublish
  exact hfetch (hY (hok.2 q p k rfl hget hcount))

/-- A first call with GETs finds no counts and no control words. -/
theorem first_get_clean {σ : Schedule} (h : ∀ p, IsMember u p → σ.kind p 0 = some .get) :
    Clean u σ 0 := by
  have hzero : σ.kind 0 0 = some .get := h 0 u.team.pes_pos
  constructor
  · exact fun p hp => (h p hp).trans hzero.symm
  · simp [hzero]
  · simp [hzero]
  · simp [hzero]
  · simp [seqMask, sequenceNumber]

end Release

section Examples

def twoPes : Setup :=
  ⟨⟨0, 1, 2, Nat.one_pos, Nat.two_pos⟩, fun _ => 1, fun _ => Nat.one_pos, true, 1, 1⟩

def ordered : Layout := ⟨fun _ => 1, fun j => j, fun _ => 1, fun j => j⟩

def reversed : Layout := ⟨fun _ => 1, fun j => 1 - j, fun _ => 1, fun j => 1 - j⟩

def barrierTrace (k : ℕ) : List Event :=
  [.transfer 0 k, .transfer 1 k, .arrive 1 k, .collect 1 k, .reset 1 k, .release 1 k, .lower k,
   .ret 0 k, .await 1 k, .clear 1 k, .ret 1 k]

def copyTrace (k : ℕ) : List Event :=
  [.payload 0 0 k, .payload 0 1 k, .payload 1 0 k, .payload 1 1 k,
   .publish 0 0 k, .publish 0 1 k, .publish 1 0 k, .publish 1 1 k,
   .seen 0 0 k, .seen 0 1 k, .seen 1 0 k, .seen 1 1 k,
   .quiet 0 0 k, .quiet 0 1 k, .quiet 1 0 k, .quiet 1 1 k,
   .unpack 0 0 k, .unpack 0 1 k, .unpack 1 0 k, .unpack 1 1 k, .ret 0 k, .ret 1 k]

def linearThenCounts : List Call := [.alltoallLinear, .alltoallv 0 1 8 fun _ => reversed]

theorem linear_then_counts_clean (k : ℕ) (hk : k ≤ 1) :
    Clean twoPes (schedule twoPes linearThenCounts) k := by
  have hagree : ∀ k ≤ 1, ∀ p < 2, (schedule twoPes linearThenCounts).kind p k =
      (schedule twoPes linearThenCounts).kind 0 k := by decide
  have hnomem : ∀ k ≤ 1, (schedule twoPes linearThenCounts).kind 0 k ≠ some .mem := by decide
  have hnoget : ∀ k ≤ 1, (schedule twoPes linearThenCounts).kind 0 k ≠ some .get := by decide
  have hbarrier : ∀ k ≤ 1, (schedule twoPes linearThenCounts).kind 0 k = some .barrier → k = 0 := by
    decide
  constructor
  all_goals grind [IsMember, LeftCount, twoPes]

theorem linear_then_counts_kept :
    ∃ X m, (sys twoPes (schedule twoPes linearThenCounts)).Run
        (CleanSoFar twoPes (schedule twoPes linearThenCounts)) init X m ∧
      Returned twoPes linearThenCounts 0 1 X ∧ Returned twoPes linearThenCounts 1 1 X ∧
      CallsKept twoPes linearThenCounts X := by
  have hstage : ∀ e ∈ barrierTrace 0 ++ copyTrace 1, stage e ≤ 1 := by decide
  have hclean : ∀ (X : Set Event) (m : Cell → ℤ), ∀ e ∈ barrierTrace 0 ++ copyTrace 1,
      CleanSoFar twoPes (schedule twoPes linearThenCounts) X m e :=
    fun _ _ e he k hk => linear_then_counts_clean k (hk.trans (hstage e he))
  have htrace : (sys twoPes (schedule twoPes linearThenCounts)).replay
      (preds twoPes (schedule twoPes linearThenCounts)) (barrierTrace 0 ++ copyTrace 1) [] init =
      some (barrierTrace 0 ++ copyTrace 1).reverse := by decide
  obtain ⟨m, hrun⟩ := System.run_of_trace (fun _ _ h => h) hclean htrace
  exact ⟨_, m, hrun, by decide, by decide, clean_calls_kept _ _ hrun⟩

def countsThenLinear : List Call := [.alltoallv 0 1 8 fun _ => reversed, .alltoallLinear]

def staleTrace : List Event :=
  copyTrace 0 ++ [Event.transfer 0 1, .collect 1 1, .reset 1 1, .release 1 1, .lower 1, .ret 0 1]

def mixedLayouts : List Call := [.alltoallv 0 1 8 fun p => if p = 0 then ordered else reversed]

def mixedTrace : List Event :=
  [.transfer 0 0, .payload 1 0 0, .publish 1 0 0, .collect 1 0, .reset 1 0, .release 1 0,
   .lower 0, .ret 0 0]

/-- The counts of the first call are taken for arrivals at the barrier of the second. And the
count of a peer that takes the other path is taken for its arrival in the same call. -/
theorem counts_taken_for_arrivals :
    (∃ X m, (sys twoPes (schedule twoPes countsThenLinear)).Run anyStep init X m ∧
      Returned twoPes countsThenLinear 0 1 X ∧ InCall twoPes countsThenLinear 0 1 1 ∧
      ¬ Landed (schedule twoPes countsThenLinear) 1 0 1 X) ∧
    (∃ X m, (sys twoPes (schedule twoPes mixedLayouts)).Run anyStep init X m ∧
      Returned twoPes mixedLayouts 0 0 X ∧ InCall twoPes mixedLayouts 0 0 0 ∧
      ¬ Landed (schedule twoPes mixedLayouts) 1 0 0 X) := by
  constructor
  · have htrace : (sys twoPes (schedule twoPes countsThenLinear)).replay
        (preds twoPes (schedule twoPes countsThenLinear)) staleTrace [] init =
          some staleTrace.reverse := by
      decide
    obtain ⟨m, hrun⟩ := System.any_run_of_trace (fun _ _ h => h) htrace
    exact ⟨_, m, hrun, by decide, by decide, by decide⟩
  · have htrace : (sys twoPes (schedule twoPes mixedLayouts)).replay
        (preds twoPes (schedule twoPes mixedLayouts)) mixedTrace [] init =
          some mixedTrace.reverse := by
      decide
    obtain ⟨m, hrun⟩ := System.any_run_of_trace (fun _ _ h => h) htrace
    exact ⟨_, m, hrun, by decide, by decide, by decide⟩

def twoPesGet : Setup := { twoPes with wgAlgoCopy := false }

def reversedGet : List Call := [.alltoallv 0 1 8 fun _ => reversed]

abbrev getSys : System Event Cell ℤ := sys twoPesGet (schedule twoPesGet reversedGet)

abbrev getPreds : Event → List Event := preds twoPesGet (schedule twoPesGet reversedGet)

def posted : List Event :=
  [.control 0 0 0, .control 0 1 0, .control 1 0 0, .control 1 1 0, .consume 0 0 0, .consume 0 1 0,
    .consume 1 0 0, .consume 1 1 0, .fetch 0 0 0, .fetch 0 1 0]

def released : List Event :=
  [.publish 0 0 0, .publish 1 0 0, .publish 0 1 0, .seen 0 0 0, .seen 0 1 0, .quiet 0 0 0,
    .quiet 0 1 0, .ret 0 0]

def fetched : List Event := posted ++ [.fetch 1 0 0]

theorem reversed_get_clean {X : Set Event} {m : Cell → ℤ} (he : stage e = 0) :
    CleanSoFar twoPesGet (schedule twoPesGet reversedGet) X m e := by
  intro k hk
  obtain rfl : k = 0 := by omega
  exact first_get_clean (by decide : ∀ p < 2, _)

theorem fetched_then_released : ∃ X m, getSys.Run
    (FetchedFirst twoPesGet reversedGet) init X m ∧ .ret 0 0 ∈ X ∧ .consume 1 0 0 ∈ X ∧
      ∀ q, ¬ Reading twoPesGet reversedGet X q 0 0 := by
  have hfetch : getSys.replay getPreds fetched [] init = some fetched.reverse := by decide
  have hreturn : getSys.replay getPreds released fetched.reverse
      (getSys.memoryAfter fetched init) = some (released.reverse ++ fetched.reverse) := by decide
  have hstage : ∀ e ∈ fetched ++ released, stage e = 0 := by decide
  have hbefore : ∀ X m, ∀ e ∈ fetched, FetchedFirst twoPesGet reversedGet X m e := by
    intro X m e he
    refine ⟨reversed_get_clean (hstage e (mem_append_left _ he)), ?_⟩
    rintro q p k rfl
    simp [fetched, posted] at he
  have hafter : ∀ X m, {a | a ∈ fetched.reverse} ⊆ X → ∀ e ∈ released,
      FetchedFirst twoPesGet reversedGet X m e := by
    intro X m hX e he
    refine ⟨reversed_get_clean (hstage e (mem_append_right _ he)), ?_⟩
    rintro q p k rfl - -
    have hmem : .fetch q p k ∈ fetched.reverse := by
      simp [released] at he
      grind [fetched, posted]
    exact hX hmem
  have hrun := System.run_of_replay (fun _ _ h => h) hafter
    (System.run_after_trace (fun _ _ h => h) hbefore hfetch) hreturn
  have hret : .ret 0 0 ∈ released.reverse ++ fetched.reverse := by decide
  have hconsume : .consume 1 0 0 ∈ released.reverse ++ fetched.reverse := by decide
  exact ⟨_, _, hrun, hret, hconsume, fetched_released hrun (by decide) hret⟩

/-- The count of PE 1 overtakes its GET, and PE 0 returns. -/
theorem returns_while_read : ∃ X m, getSys.Run
    anyStep init X m ∧ .ret 0 0 ∈ X ∧ Reading twoPesGet reversedGet X 1 0 0 := by
  have htrace : getSys.replay getPreds (posted ++ released) [] init =
      some (posted ++ released).reverse := by decide
  obtain ⟨m, hrun⟩ := System.any_run_of_trace (fun _ _ h => h) htrace
  exact ⟨_, m, hrun, by decide, by decide, by decide, by decide⟩

end Examples

end GdaAlltoallSync
