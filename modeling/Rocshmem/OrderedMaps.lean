import Mathlib

/-! Ordered maps as lists of entries with increasing keys. Iterators are given by what they
point at: the first entry that satisfies a predicate on keys, and the last one. -/
namespace OrderedMaps

variable {κ ν : Type*} [LinearOrder κ]

structure OrderedMap (κ ν : Type*) [LinearOrder κ] where
  entries : List (κ × ν)
  sorted : entries.Pairwise (fun a b => a.1 < b.1)

namespace OrderedMap

instance : Membership (κ × ν) (OrderedMap κ ν) := ⟨fun m e => e ∈ m.entries⟩

theorem mem_def {m : OrderedMap κ ν} {e : κ × ν} : e ∈ m ↔ e ∈ m.entries := Iff.rfl

def empty : OrderedMap κ ν := ⟨[], .nil⟩

@[simp] theorem not_mem_empty (e : κ × ν) : e ∉ (empty : OrderedMap κ ν) := List.not_mem_nil

theorem eq_of_key_eq {m : OrderedMap κ ν} {a b : κ × ν} (ha : a ∈ m) (hb : b ∈ m)
    (h : a.1 = b.1) : a = b := by
  obtain ⟨l, hsorted⟩ := m
  rw [mem_def] at ha hb
  dsimp only at ha hb
  induction hsorted with
  | nil => cases ha
  | cons hall _ ih =>
    grind

def firstWhere (m : OrderedMap κ ν) (p : κ → Bool) : Option (κ × ν) :=
  m.entries.find? (fun e => p e.1)

def lastWhere (m : OrderedMap κ ν) (p : κ → Bool) : Option (κ × ν) :=
  m.entries.reverse.find? (fun e => p e.1)

variable {l : List (κ × ν)}

omit [LinearOrder κ] in
theorem find_le {r : κ → κ → Prop} (h : l.Pairwise (fun a b => r a.1 b.1)) {p : κ → Bool}
    {e : κ × ν} (hf : l.find? (fun e => p e.1) = some e) :
    ∀ a ∈ l, p a.1 = true → e.1 = a.1 ∨ r e.1 a.1 := by
  induction h with
  | nil => cases hf
  | @cons b l hall _ ih =>
    grind

section Iterators

variable {m : OrderedMap κ ν} {p : κ → Bool} {e : κ × ν}

theorem firstWhere_some (h : m.firstWhere p = some e) :
    e ∈ m ∧ p e.1 = true ∧ ∀ a ∈ m, p a.1 = true → e.1 ≤ a.1 :=
  ⟨List.mem_of_find?_eq_some h, List.find?_some (p := fun e : κ × ν => p e.1) h,
    fun a ha hp => (find_le m.sorted h a ha hp).elim Eq.le le_of_lt⟩

theorem firstWhere_none (h : m.firstWhere p = none) {a : κ × ν} (ha : a ∈ m) : p a.1 = false := by
  simpa using List.find?_eq_none.mp h a ha

theorem lastWhere_some (h : m.lastWhere p = some e) :
    e ∈ m ∧ p e.1 = true ∧ ∀ a ∈ m, p a.1 = true → a.1 ≤ e.1 := by
  refine ⟨List.mem_reverse.mp (List.mem_of_find?_eq_some h),
    List.find?_some (p := fun e : κ × ν => p e.1) h, fun a ha hp => ?_⟩
  have hle := find_le (r := fun x y => y < x) (List.pairwise_reverse.mpr m.sorted) h a
    (List.mem_reverse.mpr ha) hp
  exact hle.elim Eq.ge le_of_lt

theorem lastWhere_none (h : m.lastWhere p = none) {a : κ × ν} (ha : a ∈ m) : p a.1 = false := by
  simpa using List.find?_eq_none.mp h a (List.mem_reverse.mpr ha)

end Iterators

def lowerBound (m : OrderedMap κ ν) (k : κ) : Option (κ × ν) := m.firstWhere (fun x => k ≤ x)

def beforeLowerBound (m : OrderedMap κ ν) (k : κ) : Option (κ × ν) := m.lastWhere (fun x => x < k)

def beforeUpperBound (m : OrderedMap κ ν) (k : κ) : Option (κ × ν) := m.lastWhere (fun x => x ≤ k)

def find (m : OrderedMap κ ν) (k : κ) : Option (κ × ν) := m.firstWhere (fun x => x = k)

theorem find_some_iff {m : OrderedMap κ ν} {k : κ} {e : κ × ν} :
    m.find k = some e ↔ e ∈ m ∧ e.1 = k := by
  constructor
  · intro h
    obtain ⟨hmem, hkey, -⟩ := firstWhere_some h
    exact ⟨hmem, by simpa using hkey⟩
  · rintro ⟨hmem, hkey⟩
    cases hfind : m.find k with
    | none => simpa [hkey] using firstWhere_none hfind hmem
    | some a =>
      obtain ⟨ha, hakey, -⟩ := firstWhere_some hfind
      exact congrArg some (eq_of_key_eq ha hmem ((by simpa using hakey : a.1 = k).trans hkey.symm))

theorem find_none_iff {m : OrderedMap κ ν} {k : κ} : m.find k = none ↔ ∀ e ∈ m, e.1 ≠ k := by
  constructor
  · intro h e he hkey
    rw [find_some_iff.mpr ⟨he, hkey⟩] at h
    cases h
  · intro h
    cases hfind : m.find k with
    | none => rfl
    | some e =>
      obtain ⟨he, hkey⟩ := find_some_iff.mp hfind
      exact absurd hkey (h e he)

def insertEntry (k : κ) (v : ν) : List (κ × ν) → List (κ × ν)
  | [] => [(k, v)]
  | e :: l =>
    if k < e.1 then (k, v) :: e :: l
    else if k = e.1 then (k, v) :: l
    else e :: insertEntry k v l

variable {v : ν}

theorem mem_insertEntry {k : κ} (h : l.Pairwise (fun a b => a.1 < b.1)) {a : κ × ν} :
    a ∈ insertEntry k v l ↔ a = (k, v) ∨ a ∈ l ∧ a.1 ≠ k := by
  induction h with
  | nil => simp [insertEntry]
  | @cons e l hall _ ih =>
    grind [insertEntry]

theorem insertEntry_sorted {k : κ} (h : l.Pairwise (fun a b => a.1 < b.1)) :
    (insertEntry k v l).Pairwise (fun a b => a.1 < b.1) := by
  induction h with
  | nil => simp [insertEntry]
  | @cons e l hall htail ih =>
    unfold insertEntry
    split_ifs with hlt heq
    · refine .cons (fun b hb => ?_) (.cons hall htail)
      rcases List.mem_cons.mp hb with rfl | hb'
      · exact hlt
      · exact hlt.trans (hall b hb')
    · subst heq
      exact .cons hall htail
    · refine .cons (fun b hb => ?_) ih
      rcases (mem_insertEntry htail).mp hb with rfl | ⟨hb', -⟩
      · exact lt_of_le_of_ne (not_lt.mp hlt) (Ne.symm heq)
      · exact hall b hb'

def insert (m : OrderedMap κ ν) (k : κ) (v : ν) : OrderedMap κ ν :=
  ⟨insertEntry k v m.entries, insertEntry_sorted m.sorted⟩

def erase (m : OrderedMap κ ν) (k : κ) : OrderedMap κ ν :=
  ⟨m.entries.filter (fun e => e.1 ≠ k), m.sorted.filter _⟩

def size (m : OrderedMap κ ν) : ℕ := m.entries.length

@[simp] theorem mem_insert {m : OrderedMap κ ν} {k : κ} {e : κ × ν} :
    e ∈ m.insert k v ↔ e = (k, v) ∨ e ∈ m ∧ e.1 ≠ k :=
  mem_insertEntry m.sorted

@[simp] theorem mem_erase {m : OrderedMap κ ν} {k : κ} {e : κ × ν} :
    e ∈ m.erase k ↔ e ∈ m ∧ e.1 ≠ k := by
  rw [mem_def, erase, List.mem_filter]
  simp [mem_def]

theorem nodup (m : OrderedMap κ ν) : m.entries.Nodup :=
  m.sorted.imp fun hlt heq => hlt.ne (congrArg Prod.fst heq)

theorem keys_nodup (m : OrderedMap κ ν) : (m.entries.map Prod.fst).Nodup :=
  List.pairwise_map.mpr (m.sorted.imp fun hlt => hlt.ne)

theorem ext_mem {m n : OrderedMap κ ν} (h : ∀ e, e ∈ m ↔ e ∈ n) : m = n := by
  have hperm : m.entries.Perm n.entries := by
    rw [List.perm_ext_iff_of_nodup]
    · exact h
    · exact m.nodup
    · exact n.nodup
  have heq : m.entries = n.entries :=
    hperm.eq_of_pairwise (fun a b _ _ hab hba => absurd hab hba.asymm) m.sorted n.sorted
  cases m
  cases n
  congr

theorem erase_insert {m : OrderedMap κ ν} {k : κ} (h : ∀ e ∈ m, e.1 ≠ k) :
    (m.insert k v).erase k = m := by
  apply ext_mem
  intro e
  simp only [mem_erase, mem_insert]
  constructor
  · rintro ⟨rfl | ⟨he, -⟩, hne⟩
    · exact absurd rfl hne
    · exact he
  · exact fun he => ⟨.inr ⟨he, h e he⟩, h e he⟩

theorem erase_of_fresh {m : OrderedMap κ ν} {k : κ} (h : ∀ e ∈ m, e.1 ≠ k) : m.erase k = m :=
  ext_mem fun e => by
    rw [mem_erase]
    exact and_iff_left_of_imp (h e)

theorem perm_cons {m n : OrderedMap κ ν} {x : κ × ν} (h : ∀ e, e ∈ n ↔ e = x ∨ e ∈ m)
    (hx : x ∉ m) : n.entries.Perm (x :: m.entries) := by
  rw [List.perm_ext_iff_of_nodup n.nodup (List.nodup_cons.mpr ⟨hx, m.nodup⟩)]
  intro e
  rw [List.mem_cons]
  exact h e

theorem insert_perm {m : OrderedMap κ ν} {k : κ} (h : ∀ e ∈ m, e.1 ≠ k) :
    (m.insert k v).entries.Perm ((k, v) :: m.entries) := by
  refine perm_cons (fun e => ?_) (fun hmem => h _ hmem rfl)
  exact mem_insert.trans (or_congr_right ⟨And.left, fun he => ⟨he, h e he⟩⟩)

theorem erase_perm {m : OrderedMap κ ν} {e : κ × ν} (h : e ∈ m) :
    m.entries.Perm (e :: (m.erase e.1).entries) := by
  grind [eq_of_key_eq, mem_erase, perm_cons]

def SameKeys {μ : Type*} (m : OrderedMap κ ν) (n : OrderedMap κ μ) : Prop :=
  ∀ a, (∃ v, (a, v) ∈ m) ↔ ∃ w, (a, w) ∈ n

namespace SameKeys

variable {μ : Type*} {m : OrderedMap κ ν} {n : OrderedMap κ μ} {k : κ}

section

variable (h : SameKeys m n)
include h

theorem symm : SameKeys n m := fun a => (h a).symm

theorem trans {ξ : Type*} {l : OrderedMap κ ξ} (h' : SameKeys n l) : SameKeys m l :=
  fun a => (h a).trans (h' a)

theorem fresh (hn : ∀ e ∈ n, e.1 ≠ k) : ∀ e ∈ m, e.1 ≠ k := by
  rintro ⟨a, v⟩ he rfl
  obtain ⟨w, hw⟩ := (h a).mp ⟨v, he⟩
  exact hn _ hw rfl

theorem find_none (hn : n.find k = none) : m.find k = none :=
  find_none_iff.mpr (h.fresh (find_none_iff.mp hn))

theorem find_some {e : κ × μ} (hn : n.find k = some e) : ∃ v, m.find k = some (k, v) := by
  obtain ⟨he, rfl⟩ := find_some_iff.mp hn
  obtain ⟨v, hv⟩ := (h e.1).mpr ⟨e.2, he⟩
  exact ⟨v, find_some_iff.mpr ⟨hv, rfl⟩⟩

theorem insert (v : ν) (w : μ) : SameKeys (m.insert k v) (n.insert k w) := by
  intro a
  by_cases ha : a = k
  · subst ha
    exact iff_of_true ⟨v, mem_insert.mpr (.inl rfl)⟩ ⟨w, mem_insert.mpr (.inl rfl)⟩
  · simpa [ha] using h a

theorem erase : SameKeys (m.erase k) (n.erase k) := by
  intro a
  simpa using and_congr_left fun _ => h a

theorem size_eq : m.size = n.size := by
  have hkeys : (m.entries.map Prod.fst).Perm (n.entries.map Prod.fst) := by
    rw [List.perm_ext_iff_of_nodup m.keys_nodup n.keys_nodup]
    intro a
    simpa [mem_def] using h a
  simpa [size] using hkeys.length_eq

end

end SameKeys

end OrderedMap

end OrderedMaps
