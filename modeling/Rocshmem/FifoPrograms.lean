import Rocshmem.GuardedMachines

/-! Processes that exchange labelled values over first-in first-out channels. Each process goes
through a fixed list of actions. If on every channel the labels sent are the labels expected, in
the same order, then every receive takes the message it expects; and if the values sent are those
that a process going through its list alone would send, then the memories are those it would
have. -/
namespace FifoPrograms

open Function GuardedMachines List

inductive Act (C L X : Type*) where
  | send (c : C) (l : L) (x : X)
  | recv (c : C) (l : L) (x : X)
  | move (x y : X)
  deriving DecidableEq

structure Store (X V M : Type*) where
  read : M → X → V
  write : M → X → V → M

variable {P C L X V M : Type*}

@[ext]
structure State (P C L X V M : Type*) where
  done : P → List (Act C L X)
  todo : P → List (Act C L X)
  queue : C → List (L × V)
  mem : P → M

def initial (program : P → List (Act C L X)) (mem : P → M) : State P C L X V M :=
  ⟨fun _ => [], program, fun _ => [], mem⟩

section Machine

variable [DecidableEq P] [DecidableEq C]

def State.advance (s : State P C L X V M) (p : P) (a : Act C L X) (rest : List (Act C L X)) :
    State P C L X V M :=
  { s with
    done := update s.done p (s.done p ++ [a])
    todo := update s.todo p rest }

def State.setMem (s : State P C L X V M) (p : P) (m : M) : State P C L X V M :=
  { s with mem := update s.mem p m }

def State.setQueue (s : State P C L X V M) (c : C) (ms : List (L × V)) : State P C L X V M :=
  { s with queue := update s.queue c ms }

def step (store : Store X V M) (s : State P C L X V M) (p : P) :
    Option (State P C L X V M) :=
  match s.todo p with
  | [] => none
  | .send c l x :: rest =>
    some ((s.setQueue c (s.queue c ++ [(l, store.read (s.mem p) x)])).advance p (.send c l x) rest)
  | .recv c l x :: rest =>
    match s.queue c with
    | [] => none
    | (_, v) :: ms =>
      some (((s.setQueue c ms).setMem p (store.write (s.mem p) x v)).advance p (.recv c l x) rest)
  | .move x y :: rest =>
    some ((s.setMem p (store.write (s.mem p) x (store.read (s.mem p) y))).advance p (.move x y)
      rest)

def machine (store : Store X V M) (program : P → List (Act C L X)) (mem : P → M) :
    Machine (State P C L X V M) P := .ofStep (initial program mem) (step store)

end Machine

section Lists

variable [DecidableEq C]

def sendsOn (c : C) : List (Act C L X) → List L
  | [] => []
  | .send c' l _ :: as => if c' = c then l :: sendsOn c as else sendsOn c as
  | _ :: as => sendsOn c as

def recvsOn (c : C) : List (Act C L X) → List L
  | [] => []
  | .recv c' l _ :: as => if c' = c then l :: recvsOn c as else recvsOn c as
  | _ :: as => recvsOn c as

theorem sendsOn_append (c : C) (as bs : List (Act C L X)) :
    sendsOn c (as ++ bs) = sendsOn c as ++ sendsOn c bs := by
  induction as with
  | nil => rfl
  | cons a as ih =>
    cases a with
    | send c' l x =>
      simp only [cons_append, sendsOn, ih]
      split <;> rfl
    | recv c' l x | move x y => simp only [cons_append, sendsOn, ih]

theorem recvsOn_append (c : C) (as bs : List (Act C L X)) :
    recvsOn c (as ++ bs) = recvsOn c as ++ recvsOn c bs := by
  induction as with
  | nil => rfl
  | cons a as ih =>
    cases a with
    | recv c' l x =>
      simp only [cons_append, recvsOn, ih]
      split <;> rfl
    | send c' l x | move x y => simp only [cons_append, recvsOn, ih]

theorem sendsOn_flatMap {ι : Type*} (c : C) (f : ι → List (Act C L X)) (is : List ι) :
    sendsOn c (is.flatMap f) = is.flatMap fun i => sendsOn c (f i) := by
  induction is with
  | nil => rfl
  | cons i is ih => rw [flatMap_cons, flatMap_cons, sendsOn_append, ih]

theorem recvsOn_flatMap {ι : Type*} (c : C) (f : ι → List (Act C L X)) (is : List ι) :
    recvsOn c (is.flatMap f) = is.flatMap fun i => recvsOn c (f i) := by
  induction is with
  | nil => rfl
  | cons i is ih => rw [flatMap_cons, flatMap_cons, recvsOn_append, ih]

variable {ι : Type*} {c : C}

theorem flatMap_ite_eq (p : ι → Prop) [DecidablePred p] (l : ι → L) (is : List ι) :
    (is.flatMap fun i => if p i then [l i] else []) = (is.filter fun i => p i).map l := by
  induction is with
  | nil => rfl
  | cons i is ih =>
    grind

theorem sendsOn_map (c : C) (f : ι → C) (l : ι → L) (x : ι → X) (is : List ι) :
    sendsOn c (is.map fun i => .send (f i) (l i) (x i)) = (is.filter fun i => f i = c).map l := by
  rw [map_eq_flatMap, sendsOn_flatMap]
  exact flatMap_ite_eq (fun i => f i = c) l is

theorem recvsOn_map (c : C) (f : ι → C) (l : ι → L) (x : ι → X) (is : List ι) :
    recvsOn c (is.map fun i => .recv (f i) (l i) (x i)) = (is.filter fun i => f i = c).map l := by
  rw [map_eq_flatMap, recvsOn_flatMap]
  exact flatMap_ite_eq (fun i => f i = c) l is

theorem sendsOn_exchanges (c : C) (f g : ι → C) (l l' : ι → L) (x y : ι → X) (is : List ι) :
    sendsOn c (is.flatMap fun i => [.send (f i) (l i) (x i), .recv (g i) (l' i) (y i)]) =
      (is.filter fun i => f i = c).map l := by
  rw [sendsOn_flatMap]
  exact flatMap_ite_eq (fun i => f i = c) l is

theorem recvsOn_exchanges (c : C) (f g : ι → C) (l l' : ι → L) (x y : ι → X) (is : List ι) :
    recvsOn c (is.flatMap fun i => [.send (f i) (l i) (x i), .recv (g i) (l' i) (y i)]) =
      (is.filter fun i => g i = c).map l' := by
  rw [recvsOn_flatMap]
  exact flatMap_ite_eq (fun i => g i = c) l' is

variable {as : List (Act C L X)}

theorem exists_send_of_sendsOn {l : L} (h : l ∈ sendsOn c as) : ∃ x, Act.send c l x ∈ as := by
  induction as with
  | nil => exact absurd h not_mem_nil
  | cons a as ih =>
    have hcons : l ∈ sendsOn c as → ∃ x, Act.send c l x ∈ a :: as := fun h => by
      obtain ⟨x, hx⟩ := ih h
      exact ⟨x, mem_cons_of_mem _ hx⟩
    cases a with
    | send c' l' x =>
      grind [sendsOn]
    | recv c' l' x | move x y => exact hcons h

theorem exists_recv_of_recvsOn {l : L} (h : l ∈ recvsOn c as) : ∃ x, Act.recv c l x ∈ as := by
  induction as with
  | nil => exact absurd h not_mem_nil
  | cons a as ih =>
    have hcons : l ∈ recvsOn c as → ∃ x, Act.recv c l x ∈ a :: as := fun h => by
      obtain ⟨x, hx⟩ := ih h
      exact ⟨x, mem_cons_of_mem _ hx⟩
    cases a with
    | recv c' l' x =>
      grind [recvsOn]
    | send c' l' x | move x y => exact hcons h

end Lists

structure Matched [DecidableEq C] (source target : C → P) (program : P → List (Act C L X)) :
    Prop where
  sends : ∀ {p c l x}, Act.send c l x ∈ program p → source c = p
  recvs : ∀ {p c l x}, Act.recv c l x ∈ program p → target c = p
  labels : ∀ c, sendsOn c (program (source c)) = recvsOn c (program (target c))

structure Delivered [DecidableEq C] (source target : C → P) (program : P → List (Act C L X))
    (s : State P C L X V M) : Prop where
  split : ∀ p, s.done p ++ s.todo p = program p
  queue : ∀ c, sendsOn c (s.done (source c)) =
    recvsOn c (s.done (target c)) ++ (s.queue c).map Prod.fst

section Histories

variable {program : P → List (Act C L X)} {s : State P C L X V M} {p : P} {a : Act C L X}
  {rest : List (Act C L X)}

theorem mem_program (h : ∀ p, s.done p ++ s.todo p = program p) (hp : s.todo p = a :: rest) :
    a ∈ program p := by
  rw [← h p, hp]
  exact mem_append_right _ mem_cons_self

variable [DecidableEq P]

theorem split_advance (h : ∀ p, s.done p ++ s.todo p = program p) (hp : s.todo p = a :: rest)
    (q : P) : update s.done p (s.done p ++ [a]) q ++ update s.todo p rest q =
      program q := by
  grind

variable [DecidableEq C]

theorem sendsOn_advance (c : C) (q : P) (hne : q ≠ p → sendsOn c [a] = []) :
    sendsOn c (update s.done p (s.done p ++ [a]) q) =
      sendsOn c (s.done q) ++ sendsOn c [a] := by
  by_cases hq : q = p
  · rw [hq, update_self, sendsOn_append]
  · rw [update_of_ne hq, hne hq, append_nil]

theorem recvsOn_advance (c : C) (q : P) (hne : q ≠ p → recvsOn c [a] = []) :
    recvsOn c (update s.done p (s.done p ++ [a]) q) =
      recvsOn c (s.done q) ++ recvsOn c [a] := by
  by_cases hq : q = p
  · rw [hq, update_self, recvsOn_append]
  · rw [update_of_ne hq, hne hq, append_nil]

end Histories

variable {ok : State P C L X V M → P → Prop}

namespace Delivered

variable [DecidableEq C] {source target : C → P} {program : P → List (Act C L X)}
  {s t : State P C L X V M} {p : P} {c : C} {l : L} {x : X} {rest : List (Act C L X)}

variable {ms : List (L × V)}

theorem label_eq (h : Delivered source target program s) (hm : Matched source target program)
    {l' : L} {v : V} (hp : s.todo p = .recv c l x :: rest) (hq : s.queue c = (l', v) :: ms) :
    l' = l := by
  have htarget := hm.recvs (mem_program h.split hp)
  have hlabels := hm.labels c
  rw [← h.split (source c), ← h.split (target c), sendsOn_append, recvsOn_append, h.queue c, hq,
    append_assoc, htarget, hp, recvsOn, if_pos rfl] at hlabels
  exact (cons.inj (append_cancel_left hlabels)).1

variable [DecidableEq P]

section

variable (h : Delivered source target program s)
include h

theorem send (hm : Matched source target program) (hp : s.todo p = .send c l x :: rest) (v : V) :
    Delivered source target program
      ((s.setQueue c (s.queue c ++ [(l, v)])).advance p (.send c l x) rest) := by
  have hsource := hm.sends (mem_program h.split hp)
  refine ⟨split_advance h.split hp, fun c' => ?_⟩
  have hrecv : recvsOn c' [Act.send c l x] = [] := rfl
  change sendsOn c' (update s.done p (s.done p ++ [.send c l x]) (source c')) =
    recvsOn c' (update s.done p (s.done p ++ [.send c l x]) (target c')) ++
      (update s.queue c (s.queue c ++ [(l, v)]) c').map Prod.fst
  rw [recvsOn_advance c' _ fun _ => hrecv, hrecv, append_nil]
  by_cases hc : c' = c
  all_goals grind [sendsOn, Delivered, sendsOn_advance]

theorem recv (hm : Matched source target program) {l' : L} {v : V}
    (hp : s.todo p = .recv c l x :: rest) (hq : s.queue c = (l', v) :: ms) (m : M) :
    Delivered source target program
      (((s.setQueue c ms).setMem p m).advance p (.recv c l x) rest) := by
  have htarget := hm.recvs (mem_program h.split hp)
  obtain rfl := h.label_eq hm hp hq
  refine ⟨split_advance h.split hp, fun c' => ?_⟩
  have hsend : sendsOn c' [Act.recv c l' x] = [] := rfl
  change sendsOn c' (update s.done p (s.done p ++ [.recv c l' x]) (source c')) =
    recvsOn c' (update s.done p (s.done p ++ [.recv c l' x]) (target c')) ++
      (update s.queue c ms c').map Prod.fst
  rw [sendsOn_advance c' _ fun _ => hsend, hsend, append_nil, h.queue]
  by_cases hc : c' = c
  all_goals grind [recvsOn, recvsOn_advance]

theorem move {y : X} (m : M) (hp : s.todo p = .move x y :: rest) :
    Delivered source target program ((s.setMem p m).advance p (.move x y) rest) := by
  refine ⟨split_advance h.split hp, fun c' => ?_⟩
  have hsend : sendsOn c' [(Act.move x y : Act C L X)] = [] := rfl
  have hrecv : recvsOn c' [(Act.move x y : Act C L X)] = [] := rfl
  change sendsOn c' (update s.done p (s.done p ++ [.move x y]) (source c')) =
    recvsOn c' (update s.done p (s.done p ++ [.move x y]) (target c')) ++
      (s.queue c').map Prod.fst
  rw [sendsOn_advance c' _ fun _ => hsend, recvsOn_advance c' _ fun _ => hrecv, hsend, hrecv,
    append_nil, append_nil, h.queue]

theorem step {store : Store X V M} (hm : Matched source target program)
    (hs : FifoPrograms.step store s p = some t) : Delivered source target program t := by
  grind [step, send, recv, move]

end

theorem of_run {store : Store X V M} {mem : P → M}
    (hm : Matched source target program) (h : (machine store program mem).Run ok s) :
    Delivered source target program s := by
  refine h.ofStep_induct (I := Delivered source target program) ⟨fun _ => rfl, fun c => ?_⟩
    fun _ _ _ hs _ he => hs.step hm he
  rfl

end Delivered

section Queues

variable [DecidableEq P] [DecidableEq C] {store : Store X V M} {s t : State P C L X V M} {p : P}
  {c : C} {l : L} {v : V}

theorem mem_queue_of_step (hs : step store s p = some t) (hv : (l, v) ∈ t.queue c) :
    (l, v) ∈ s.queue c ∨ ∃ x rest, s.todo p = .send c l x :: rest ∧ v = store.read (s.mem p) x := by
  rw [step] at hs
  split at hs
  · cases hs
  next c' l' x rest hp =>
    cases hs
    change (l, v) ∈ update s.queue c' _ c at hv
    by_cases hc : c = c'
    · grind
    · rw [update_of_ne hc] at hv
      exact .inl hv
  next c' l' x rest hp =>
    split at hs
    · cases hs
    next hq =>
      cases hs
      change (l, v) ∈ update s.queue c' _ c at hv
      by_cases hc : c = c'
      · subst hc
        rw [update_self] at hv
        exact .inl (hq ▸ mem_cons_of_mem _ hv)
      · rw [update_of_ne hc] at hv
        exact .inl hv
  next =>
    cases hs
    exact .inl hv

variable {source target : C → P} {program : P → List (Act C L X)}

theorem mem_queue_of_run {mem : P → M} {R : L → V → Prop}
    (hm : Matched source target program)
    (hR : ∀ {p c l x} m, Act.send c l x ∈ program p → R l (store.read m x))
    (h : (machine store program mem).Run ok s) (hv : (l, v) ∈ s.queue c) : R l v := by
  have hboth : Delivered source target program s ∧
      ∀ {c l v}, (l, v) ∈ s.queue c → R l v := by
    refine h.ofStep_induct (I := fun s => Delivered source target program s ∧
      ∀ {c l v}, (l, v) ∈ s.queue c → R l v)
      ⟨⟨fun _ => rfl, fun c => rfl⟩, fun hv => absurd hv not_mem_nil⟩ fun s p t hs _ he => ?_
    refine ⟨hs.1.step hm he, fun {c l v} hv => ?_⟩
    rcases mem_queue_of_step he hv with hv | ⟨x, rest, hp, rfl⟩
    · exact hs.2 hv
    · exact hR _ (mem_program hs.1.split hp)
  exact hboth.2 hv

end Queues

section Causes

variable [DecidableEq C] {source target : C → P} {program : P → List (Act C L X)}
  {s : State P C L X V M} {p : P} {c : C} {l : L} {x : X} {a b : Act C L X}

theorem Delivered.program_of_done (h : Delivered source target program s) (ha : a ∈ s.done p) :
    a ∈ program p := by
  rw [← h.split p]
  exact mem_append_left _ ha

theorem mem_recvsOn {as : List (Act C L X)} (h : Act.recv c l x ∈ as) : l ∈ recvsOn c as := by
  obtain ⟨before, after, rfl⟩ := append_of_mem h
  rw [recvsOn_append, recvsOn, if_pos rfl]
  exact mem_append_right _ mem_cons_self

theorem Delivered.sent_of_received (h : Delivered source target program s)
    (hm : Matched source target program) (hr : .recv c l x ∈ s.done p) :
    ∃ y, .send c l y ∈ s.done (source c) := by
  have htarget := hm.recvs (h.program_of_done hr)
  have hl : l ∈ sendsOn c (s.done (source c)) := by
    rw [h.queue c, htarget]
    exact mem_append_left _ (mem_recvsOn hr)
  exact exists_send_of_sendsOn hl

theorem Delivered.done_of_before (h : Delivered source target program s)
    {R : Act C L X → Act C L X → Prop} (hR : (program p).Pairwise R) (ha : a ∈ s.done p)
    (hb : b ∈ program p) (hab : ¬ R a b) : b ∈ s.done p := by
  grind [Delivered]

end Causes

section Progress

variable [DecidableEq C] {source target : C → P} {program : P → List (Act C L X)}
  {s : State P C L X V M} {p : P} {c : C} {l : L} {rest : List (Act C L X)}

def Blocked (s : State P C L X V M) (p : P) : Prop :=
  ∃ c l x rest, s.todo p = .recv c l x :: rest ∧ s.queue c = []

theorem Delivered.send_of_blocked (h : Delivered source target program s)
    (hm : Matched source target program) {x : X} (hp : s.todo p = .recv c l x :: rest)
    (hq : s.queue c = []) : ∃ y, Act.send c l y ∈ s.todo (source c) := by
  have htarget := hm.recvs (mem_program h.split hp)
  have hlabels := hm.labels c
  have hqueue := h.queue c
  rw [hq, map_nil, append_nil] at hqueue
  rw [← h.split (source c), ← h.split (target c), sendsOn_append, recvsOn_append, hqueue,
    htarget, hp, recvsOn, if_pos rfl] at hlabels
  have hsends := append_cancel_left hlabels
  exact exists_send_of_sendsOn (hsends ▸ mem_cons_self)

def Below {W : Type*} [LT W] (level : L → W) : Act C L X → Act C L X → Prop
  | .recv _ l _, .send _ l' _ => level l < level l'
  | _, _ => True

theorem Delivered.todo_eq_nil {W : Type*} [LT W] [WellFoundedLT W] {level : L → W}
    (h : Delivered source target program s) (hm : Matched source target program)
    (hlevel : ∀ p, (program p).Pairwise (Below level))
    (hstuck : ∀ p, s.todo p = [] ∨ Blocked s p) (p : P) : s.todo p = [] := by
  -- by induction on the level a blocked process waits at
  have hnot : ∀ w p c l x rest, s.todo p = .recv c l x :: rest → s.queue c = [] →
      level l = w → False := by
    intro w
    induction w using WellFoundedLT.induction with
    | ind w ih =>
      intro p c l x rest hp hq hw
      obtain ⟨y, hy⟩ := h.send_of_blocked hm hp hq
      rcases hstuck (source c) with hnil | ⟨c', l', x', rest', hp', hq'⟩
      · exact absurd (hnil ▸ hy) not_mem_nil
      · rw [hp'] at hy
        have hrest : Act.send c l y ∈ rest' := (mem_cons.mp hy).resolve_left nofun
        have hpair := hlevel (source c)
        rw [← h.split (source c), hp', pairwise_append, pairwise_cons] at hpair
        have hlt : level l' < level l := hpair.2.1.1 _ hrest
        exact ih (level l') (hw ▸ hlt) _ c' l' x' rest' hp' hq' rfl
  rcases hstuck p with hnil | ⟨c, l, x, rest, hp, hq⟩
  · exact hnil
  · exact (hnot _ p c l x rest hp hq rfl).elim

end Progress

section Values

variable {store : Store X V M} {val : C → L → V}

def replay (store : Store X V M) (val : C → L → V) : List (Act C L X) → M → M
  | [], m => m
  | .send _ _ _ :: as, m => replay store val as m
  | .recv c l x :: as, m => replay store val as (store.write m x (val c l))
  | .move x y :: as, m => replay store val as (store.write m x (store.read m y))

def Consistent (store : Store X V M) (val : C → L → V) : List (Act C L X) → M → Prop
  | [], _ => True
  | .send c l x :: as, m => store.read m x = val c l ∧ Consistent store val as m
  | .recv c l x :: as, m => Consistent store val as (store.write m x (val c l))
  | .move x y :: as, m => Consistent store val as (store.write m x (store.read m y))

theorem replay_append (as bs : List (Act C L X)) (m : M) :
    replay store val (as ++ bs) m = replay store val bs (replay store val as m) := by
  induction as generalizing m with
  | nil => rfl
  | cons a as ih => cases a <;> exact ih _

theorem consistent_append (as bs : List (Act C L X)) (m : M) : Consistent store val (as ++ bs) m ↔
      Consistent store val as m ∧ Consistent store val bs (replay store val as m) := by
  induction as generalizing m with
  | nil => exact (and_iff_right trivial).symm
  | cons a as ih =>
    cases a with
    | send c l x =>
      change _ ∧ Consistent store val (as ++ bs) m ↔ (_ ∧ _) ∧ _
      rw [ih, and_assoc]
      rfl
    | recv | move => exact ih _

def written : List (Act C L X) → List X
  | [] => []
  | .send _ _ _ :: as => written as
  | .recv _ _ x :: as | .move x _ :: as => x :: written as

variable {m : M}

theorem replay_keeps {I : M → Prop} (as : List (Act C L X))
    (h : ∀ x ∈ written as, ∀ m v, I m → I (store.write m x v)) (hm : I m) :
    I (replay store val as m) := by
  induction as generalizing m with
  | nil => exact hm
  | cons a as ih =>
    cases a with
    | send c l x => exact ih h hm
    | recv c l x | move x y =>
      exact ih (fun x hx => h x (mem_cons_of_mem _ hx)) (h x mem_cons_self _ _ hm)

variable {as : List (Act C L X)}

theorem consistent_of_keeps {I : M → Prop}
    (hread : ∀ {c l x}, Act.send c l x ∈ as → ∀ m, I m → store.read m x = val c l)
    (h : ∀ x ∈ written as, ∀ m v, I m → I (store.write m x v)) (hm : I m) :
    Consistent store val as m := by
  induction as generalizing m with
  | nil => trivial
  | cons a as ih =>
    have htail : ∀ {c l x}, Act.send c l x ∈ as → ∀ m, I m → store.read m x = val c l :=
      fun hs => hread (mem_cons_of_mem _ hs)
    cases a with
    | send c l x => exact ⟨hread mem_cons_self m hm, ih htail h hm⟩
    | recv c l x | move x y =>
      exact ih htail (fun x hx => h x (mem_cons_of_mem _ hx)) (h x mem_cons_self _ _ hm)

theorem mem_written {x : X} (h : x ∈ written as) :
    (∃ c l, Act.recv c l x ∈ as) ∨ ∃ y, Act.move x y ∈ as := by
  induction as with
  | nil => exact absurd h not_mem_nil
  | cons a as ih =>
    have hcons : x ∈ written as → (∃ c l, Act.recv c l x ∈ a :: as) ∨
        ∃ y, Act.move x y ∈ a :: as := fun h => by
      grind
    cases a with
    | send c l y => exact hcons h
    | recv c l y =>
      rcases mem_cons.mp h with rfl | h
      · exact .inl ⟨c, l, mem_cons_self⟩
      · exact hcons h
    | move y z =>
      rcases mem_cons.mp h with rfl | h
      · exact .inr ⟨z, mem_cons_self⟩
      · exact hcons h

theorem consistent_flatMap {ι : Type*} {f : ι → List (Act C L X)} {F : ι → M → Prop} {is : List ι}
    (hf : ∀ i ∈ is, ∀ m, F i m → Consistent store val (f i) m)
    (hkeep : ∀ i j m, i ≠ j → F j m → F j (replay store val (f i) m)) (hnd : is.Nodup)
    (hm : ∀ i ∈ is, F i m) : Consistent store val (is.flatMap f) m := by
  induction is generalizing m with
  | nil => trivial
  | cons i is ih =>
    grind [consistent_append]
structure Valued (store : Store X V M) (val : C → L → V) (mem : P → M)
    (s : State P C L X V M) : Prop where
  mem : ∀ p, s.mem p = replay store val (s.done p) (mem p)
  queue : ∀ {c l v}, (l, v) ∈ s.queue c → v = val c l

variable [DecidableEq P] {mem : P → M} {s t : State P C L X V M} {p : P}

theorem mem_advance {a : Act C L X} (h : ∀ p, s.mem p = replay store val (s.done p) (mem p))
    (hm : m = replay store val [a] (s.mem p)) (q : P) : update s.mem p m q =
      replay store val (update s.done p (s.done p ++ [a]) q) (mem q) := by
  grind [replay_append]

variable [DecidableEq C] {source target : C → P} {program : P → List (Act C L X)}

theorem Valued.step (h : Valued store val mem s) (hd : Delivered source target program s)
    (hm : Matched source target program) (hc : ∀ p, Consistent store val (program p) (mem p))
    (hs : step store s p = some t) : Valued store val mem t := by
  refine ⟨fun q => ?_, fun {c l v} hv => ?_⟩
  · rw [FifoPrograms.step] at hs
    split at hs
    · cases hs
    next c l x rest hp =>
      cases hs
      have hmem := mem_advance h.mem (a := Act.send c l x) (p := p) rfl q
      rwa [show replay store val [Act.send c l x] (s.mem p) = s.mem p from rfl,
        update_eq_self] at hmem
    next c l x rest hp =>
      split at hs
      · cases hs
      next l' v ms hq =>
        cases hs
        obtain rfl := hd.label_eq hm hp hq
        have hv : v = val c l' := h.queue (hq ▸ mem_cons_self)
        exact mem_advance h.mem (congrArg (store.write (s.mem p) x) hv) q
    next x y rest hp =>
      cases hs
      exact mem_advance h.mem (a := Act.move x y) (p := p) rfl q
  · grind [Consistent, Valued, Delivered, mem_queue_of_step, consistent_append]

theorem Valued.of_run (hm : Matched source target program)
    (hc : ∀ p, Consistent store val (program p) (mem p))
    (h : (machine store program mem).Run ok s) : Valued store val mem s := by
  have hboth : Delivered source target program s ∧ Valued store val mem s := by
    refine h.ofStep_induct
      (I := fun s => Delivered source target program s ∧ Valued store val mem s)
      ⟨⟨fun _ => rfl, fun c => rfl⟩, fun _ => rfl, fun hv => absurd hv not_mem_nil⟩
      fun s p t hs _ he => ?_
    exact ⟨hs.1.step hm he, hs.2.step hs.1 hm hc he⟩
  exact hboth.2

end Values

section Forwarding

def Forwards (own : X → Prop) : List X → List (Act C L X) → Prop
  | _, [] => True
  | got, .send _ _ x :: as => (own x ∨ x ∈ got) ∧ Forwards own got as
  | got, .recv _ _ x :: as => Forwards own (x :: got) as
  | got, .move _ _ :: as => Forwards own got as

variable {own : X → Prop} {got : List X}

variable {as : List (Act C L X)}

theorem Forwards.mono (h : Forwards own got as) {got' : List X} (hsub : got ⊆ got') :
    Forwards own got' as := by
  induction as generalizing got got' with
  | nil => trivial
  | cons a as ih =>
    cases a with
    | send c l x => exact ⟨h.1.imp_right fun hx => hsub hx, ih h.2 hsub⟩
    | recv c l x => exact ih h (cons_subset_cons x hsub)
    | move x y => exact ih h hsub

theorem Forwards.append {bs : List (Act C L X)} (ha : Forwards own got as)
    {got' : List X} (hb : Forwards own got' bs)
    (hsub : ∀ x ∈ got', x ∈ got ∨ ∃ c l, Act.recv c l x ∈ as) : Forwards own got (as ++ bs) := by
  induction as generalizing got with
  | nil =>
    refine hb.mono fun x hx => ?_
    rcases hsub x hx with h | ⟨c, l, h⟩
    · exact h
    · exact absurd h not_mem_nil
  | cons a as ih =>
    cases a with
    | send | recv | move =>
      grind [Forwards]

theorem Forwards.flatMap {ι : Type*} {f : ι → List (Act C L X)} {is : List ι}
    (h : ∀ i ∈ is, Forwards own [] (f i)) : Forwards own [] (is.flatMap f) := by
  induction is with
  | nil => trivial
  | cons i is ih =>
    grind [Forwards.append]

theorem forwards_of_own (h : ∀ {c l x}, Act.send c l x ∈ as → own x) : Forwards own got as := by
  induction as generalizing got with
  | nil => trivial
  | cons a as ih =>
    have htail : ∀ got, Forwards own got as := fun got =>
      ih fun hs => h (mem_cons_of_mem _ hs)
    cases a with
    | send c l x => exact ⟨.inl (h mem_cons_self), htail _⟩
    | recv | move => exact htail _

theorem Forwards.of_send {rest : List (Act C L X)} {c : C} {l : L} {x : X}
    (h : Forwards own got (as ++ .send c l x :: rest)) :
    own x ∨ x ∈ got ∨ ∃ c l, Act.recv c l x ∈ as := by
  induction as generalizing got with
  | nil => exact h.1.imp_right .inl
  | cons a as ih =>
    have hcons : (∃ c l, Act.recv c l x ∈ as) → ∃ c l, Act.recv c l x ∈ a :: as := by
      rintro ⟨c, l, h⟩
      exact ⟨c, l, mem_cons_of_mem _ h⟩
    cases a with
    | send c' l' y => exact (ih h.2).imp_right (Or.imp_right hcons)
    | recv c' l' y =>
      grind [Forwards]
    | move y z => exact (ih h).imp_right (Or.imp_right hcons)

end Forwarding


end FifoPrograms
