import Rocshmem.OrderedMaps

/-! Maps from start to length of address ranges in a 64-bit address space. The ranges are not
empty, end inside the address space and do not overlap, so overlap with a new range is
decided by its two neighbours. -/
namespace RangeMaps

open OrderedMaps
open OrderedMap (eq_of_key_eq lastWhere_some mem_erase mem_insert)
open UInt64 (le_iff_toNat_le lt_iff_toNat_lt)

instance linearOrderUInt64 : LinearOrder UInt64 where
  le_refl _ := UInt64.le_refl _
  le_trans _ _ _ := UInt64.le_trans
  lt_iff_le_not_ge _ _ := by
    simp only [UInt64.le_iff_toNat_le, UInt64.lt_iff_toNat_lt]
    omega
  le_antisymm _ _ := UInt64.le_antisymm
  le_total _ _ := UInt64.le_total _ _
  toDecidableLE := inferInstance
  toDecidableEq := inferInstance
  toDecidableLT := inferInstance

def Covers (e : UInt64 × UInt64) (a : ℕ) : Prop :=
  e.1.toNat ≤ a ∧ a < e.1.toNat + e.2.toNat

def Apart (e f : UInt64 × UInt64) : Prop := ∀ a, Covers e a → ¬ Covers f a

theorem Apart.symm {e f : UInt64 × UInt64} (h : Apart e f) : Apart f e :=
  fun a hf he => h a he hf

structure RangeMap extends OrderedMap UInt64 UInt64 where
  nonempty : ∀ e ∈ toOrderedMap, 0 < e.2.toNat
  fits : ∀ e ∈ toOrderedMap, e.1.toNat + e.2.toNat < 2 ^ 64
  apart : ∀ e ∈ toOrderedMap, ∀ f ∈ toOrderedMap, e.1 < f.1 → e.1.toNat + e.2.toNat ≤ f.1.toNat

namespace RangeMap

instance : Membership (UInt64 × UInt64) RangeMap := ⟨fun m e => e ∈ m.toOrderedMap⟩

variable {e : UInt64 × UInt64} {m : RangeMap}

theorem mem_map : e ∈ m.toOrderedMap ↔ e ∈ m := Iff.rfl

theorem ext_mem {n : RangeMap} (h : ∀ e, e ∈ m ↔ e ∈ n) : m = n := by
  have hmap : m.toOrderedMap = n.toOrderedMap := OrderedMap.ext_mem h
  cases m
  cases n
  congr

def empty : RangeMap :=
  ⟨.empty, fun _ h => absurd h (by simp), fun _ h => absurd h (by simp),
    fun _ h => absurd h (by simp)⟩

theorem end_exact (m : RangeMap) (h : e ∈ m) :
    (e.1 + e.2).toNat = e.1.toNat + e.2.toNat := by
  rw [UInt64.toNat_add, Nat.mod_eq_of_lt (m.fits e h)]

theorem covers_start (m : RangeMap) (h : e ∈ m) : Covers e e.1.toNat :=
  ⟨le_refl _, Nat.lt_add_of_pos_right (m.nonempty e h)⟩

theorem eq_of_covers (m : RangeMap) {f : UInt64 × UInt64} (he : e ∈ m) (hf : f ∈ m) {a : ℕ}
    (hea : Covers e a) (hfa : Covers f a) : e = f := by
  rcases lt_trichotomy e.1 f.1 with hlt | heq | hgt
  · have := m.apart e he f hf hlt
    obtain ⟨h1, h2⟩ := hea
    obtain ⟨h3, h4⟩ := hfa
    omega
  · exact eq_of_key_eq he hf heq
  · have := m.apart f hf e he hgt
    obtain ⟨h1, h2⟩ := hea
    obtain ⟨h3, h4⟩ := hfa
    omega

theorem pairwise_apart (m : RangeMap) {f : UInt64 × UInt64} (he : e ∈ m) (hf : f ∈ m)
    (h : e ≠ f) : Apart e f :=
  fun _ hea hfa => h (m.eq_of_covers he hf hea hfa)

def overlaps (m : RangeMap) (start length : UInt64) : Bool :=
  (m.lowerBound start).any (fun e => e.1 < start + length) ||
    (m.beforeLowerBound start).any (fun e => e.1 + e.2 > start)

section Overlap

variable {start length : UInt64} (hpos : 0 < length.toNat)
  (hfit : start.toNat + length.toNat < 2 ^ 64)

include hpos hfit

theorem overlaps_iff (m : RangeMap) :
    m.overlaps start length = true ↔ ∃ e ∈ m, ∃ a, Covers e a ∧ Covers (start, length) a := by
  have hend : (start + length).toNat = start.toNat + length.toNat := by
    rw [UInt64.toNat_add, Nat.mod_eq_of_lt hfit]
  simp only [overlaps, Bool.or_eq_true, Option.any_eq_true, decide_eq_true_eq, gt_iff_lt,
    lt_iff_toNat_lt, hend]
  constructor
  · rintro (⟨e, he, hlt⟩ | ⟨e, he, hgt⟩)
    · obtain ⟨hmem, hkey, -⟩ := OrderedMap.firstWhere_some he
      rw [decide_eq_true_eq, le_iff_toNat_le] at hkey
      exact ⟨e, hmem, _, m.covers_start hmem, hkey, hlt⟩
    · obtain ⟨hmem, hkey, -⟩ := lastWhere_some he
      rw [decide_eq_true_eq, lt_iff_toNat_lt] at hkey
      rw [m.end_exact hmem] at hgt
      exact ⟨e, hmem, start.toNat, ⟨hkey.le, hgt⟩, le_refl _, Nat.lt_add_of_pos_right hpos⟩
  · rintro ⟨e, he, a, ⟨hea, hea'⟩, hna, hna'⟩
    dsimp only at hna hna'
    rcases le_or_gt start e.1 with hle | hlt
    · -- the entry at or after the start is no further away than `e`
      left
      cases hfirst : m.lowerBound start with
      | none => simpa [hle] using OrderedMap.firstWhere_none hfirst he
      | some f =>
        obtain ⟨-, -, hmin⟩ := OrderedMap.firstWhere_some hfirst
        have hfe := hmin e he (by simpa using hle)
        rw [le_iff_toNat_le] at hfe
        exact ⟨f, rfl, by omega⟩
    · -- a range between `e` and the start would begin after the common address
      right
      cases hlast : m.beforeLowerBound start with
      | none => simpa [hlt] using OrderedMap.lastWhere_none hlast he
      | some f =>
        obtain ⟨hf, hkey, hmax⟩ := lastWhere_some hlast
        have hef := hmax e he (by simpa using hlt)
        rw [decide_eq_true_eq, lt_iff_toNat_lt] at hkey
        refine ⟨f, rfl, ?_⟩
        rcases lt_or_eq_of_le hef with hbetween | heq
        · have := m.apart e he f hf hbetween
          omega
        · obtain rfl := eq_of_key_eq he hf heq
          rw [m.end_exact he]
          omega

theorem no_overlap_iff (m : RangeMap) :
    m.overlaps start length = false ↔ ∀ e ∈ m, Apart e (start, length) := by
  rw [Bool.eq_false_iff, Ne, m.overlaps_iff hpos hfit]
  push Not
  rfl

theorem before_or_after (hno : m.overlaps start length = false)
    (he : e ∈ m) :
    e.1.toNat + e.2.toNat ≤ start.toNat ∨ start.toNat + length.toNat ≤ e.1.toNat := by
  have hapart := (m.no_overlap_iff hpos hfit).mp hno e he
  by_contra hcross
  push Not at hcross
  obtain ⟨h1, h2⟩ := hcross
  rcases le_total e.1.toNat start.toNat with hle | hle
  · exact hapart start.toNat ⟨hle, h1⟩ ⟨le_refl _, Nat.lt_add_of_pos_right hpos⟩
  · exact hapart e.1.toNat (m.covers_start he) ⟨hle, h2⟩

theorem start_fresh (hno : m.overlaps start length = false) :
    ∀ e ∈ m, e.1 ≠ start := by
  rintro e he rfl
  have := before_or_after hpos hfit hno he
  have := m.nonempty e he
  omega

end Overlap

def add (m : RangeMap) (start length : UInt64) (hpos : 0 < length.toNat)
    (hfit : start.toNat + length.toNat < 2 ^ 64) (hno : m.overlaps start length = false) :
    RangeMap where
  toOrderedMap := m.insert start length
  nonempty e he := by
    rcases OrderedMap.mem_insert.mp he with rfl | ⟨he', -⟩
    · exact hpos
    · exact m.nonempty e he'
  fits e he := by
    rcases OrderedMap.mem_insert.mp he with rfl | ⟨he', -⟩
    · exact hfit
    · exact m.fits e he'
  apart e he f hf hlt := by
    rw [UInt64.lt_iff_toNat_lt] at hlt
    rcases OrderedMap.mem_insert.mp he with rfl | ⟨he', -⟩
    · rcases OrderedMap.mem_insert.mp hf with rfl | ⟨hf', -⟩
      · omega
      · have := before_or_after hpos hfit hno hf'
        dsimp only at hlt ⊢
        omega
    · rcases OrderedMap.mem_insert.mp hf with rfl | ⟨hf', -⟩
      · have := before_or_after hpos hfit hno he'
        dsimp only at hlt ⊢
        omega
      · exact m.apart e he' f hf' (UInt64.lt_iff_toNat_lt.mpr hlt)

theorem mem_add {start length : UInt64} (hpos : 0 < length.toNat)
    (hfit : start.toNat + length.toNat < 2 ^ 64) (hno : m.overlaps start length = false) :
    e ∈ m.add start length hpos hfit hno ↔ e = (start, length) ∨ e ∈ m := by
  refine mem_insert.trans (or_congr_right ⟨And.left, fun he => ?_⟩)
  exact ⟨he, start_fresh hpos hfit hno e he⟩

def remove (m : RangeMap) (k : UInt64) : RangeMap where
  toOrderedMap := m.erase k
  nonempty e he := m.nonempty e (OrderedMap.mem_erase.mp he).1
  fits e he := m.fits e (OrderedMap.mem_erase.mp he).1
  apart e he f hf := m.apart e (OrderedMap.mem_erase.mp he).1 f (OrderedMap.mem_erase.mp hf).1

theorem mem_remove {f : UInt64 × UInt64} (he : e ∈ m) : f ∈ m.remove e.1 ↔ f ∈ m ∧ f ≠ e := by
  refine mem_erase.trans (and_congr_right fun hf => not_congr ⟨fun h => ?_, fun h => ?_⟩)
  · exact eq_of_key_eq hf he h
  · rw [h]

theorem remove_add {start length : UInt64} (hpos : 0 < length.toNat)
    (hfit : start.toNat + length.toNat < 2 ^ 64) (hno : m.overlaps start length = false) :
    (m.add start length hpos hfit hno).remove start = m :=
  ext_mem fun e => by
    have hnew := (mem_add hpos hfit hno).mpr (.inl (rfl : (start, length) = _))
    rw [mem_remove hnew, mem_add]
    constructor
    · rintro ⟨rfl | he, hne⟩
      · exact absurd rfl hne
      · exact he
    · intro he
      refine ⟨.inr he, ?_⟩
      rintro rfl
      exact start_fresh hpos hfit hno _ he rfl

def containing (m : RangeMap) (a : UInt64) : Option (UInt64 × UInt64) :=
  (m.beforeUpperBound a).filter (fun e => a < e.1 + e.2)

theorem containing_some_iff {a : UInt64} : m.containing a = some e ↔ e ∈ m ∧ Covers e a.toNat := by
  rw [containing, Option.filter_eq_some_iff]
  constructor
  · rintro ⟨hlast, hlt⟩
    obtain ⟨hmem, hkey, -⟩ := lastWhere_some hlast
    rw [decide_eq_true_eq, le_iff_toNat_le] at hkey
    rw [decide_eq_true_eq, lt_iff_toNat_lt, m.end_exact hmem] at hlt
    exact ⟨hmem, hkey, hlt⟩
  · rintro ⟨he, hlow, hhigh⟩
    have hlt : a < e.1 + e.2 := by rwa [lt_iff_toNat_lt, m.end_exact he]
    refine ⟨?_, by simpa using hlt⟩
    cases hlast : m.beforeUpperBound a with
    | none =>
      have := OrderedMap.lastWhere_none hlast he
      rw [decide_eq_false_iff_not, le_iff_toNat_le] at this
      exact absurd hlow this
    | some f =>
      obtain ⟨hf, hkey, hmax⟩ := lastWhere_some hlast
      have hef := hmax e he (by rw [decide_eq_true_eq, le_iff_toNat_le]; exact hlow)
      rw [decide_eq_true_eq, le_iff_toNat_le] at hkey
      rcases lt_or_eq_of_le hef with hbetween | heq
      · have := m.apart e he f hf hbetween
        omega
      · rw [eq_of_key_eq he hf heq]

theorem containing_none_iff {a : UInt64} : m.containing a = none ↔ ∀ e ∈ m, ¬ Covers e a.toNat := by
  constructor
  · intro hnone e he hcov
    rw [containing_some_iff.mpr ⟨he, hcov⟩] at hnone
    cases hnone
  · intro hall
    cases hsome : m.containing a with
    | none => rfl
    | some e =>
      obtain ⟨he, hcov⟩ := containing_some_iff.mp hsome
      exact absurd hcov (hall e he)

end RangeMap

end RangeMaps
