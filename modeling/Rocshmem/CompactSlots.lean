import Rocshmem.OrderedMaps

/-! Tables without holes. Each key has a record with its slot in the table; a new key takes the
slot at the end, and when a key is removed the last row moves into its slot and the record of
the key that owned the row is rewritten. -/
namespace CompactSlots

open List OrderedMaps
open OrderedMap (mem_erase mem_insert)

variable {κ β : Type*} [LinearOrder κ]

structure Slots (κ : Type*) [LinearOrder κ] where
  records : OrderedMap κ ℕ
  count : ℕ

def moved (last slot j : ℕ) : ℕ := if j = last then slot else j

def relabelEntries (last slot : ℕ) : List (κ × ℕ) → List (κ × ℕ)
  | [] => []
  | e :: l => if e.2 = last then (e.1, slot) :: l else e :: relabelEntries last slot l

omit [LinearOrder κ] in
theorem relabelEntries_keys (last slot : ℕ) (l : List (κ × ℕ)) :
    (relabelEntries last slot l).map Prod.fst = l.map Prod.fst := by
  induction l with
  | nil => rfl
  | cons e l ih =>
    unfold relabelEntries
    split_ifs <;> simp [ih]

omit [LinearOrder κ] in
theorem relabelEntries_eq_map {last slot : ℕ} {l : List (κ × ℕ)} (h : (l.map Prod.snd).Nodup) :
    relabelEntries last slot l = l.map (fun e => (e.1, moved last slot e.2)) := by
  induction l with
  | nil => rfl
  | cons e l ih =>
    rw [map_cons, nodup_cons] at h
    obtain ⟨hnot, htail⟩ := h
    unfold relabelEntries
    rw [map_cons]
    split_ifs with hlast
    · have hsame : l.map (fun e => (e.1, moved last slot e.2)) = l := by
        refine (map_congr_left (fun x hx => ?_)).trans (map_id l)
        have hne : x.2 ≠ last := by
          rintro rfl
          exact hnot (hlast ▸ mem_map_of_mem hx)
        simp [moved, hne]
      rw [hsame]
      simp [moved, hlast]
    · rw [ih htail]
      simp [moved, hlast]

namespace Slots

def empty : Slots κ := ⟨.empty, 0⟩

def push (s : Slots κ) (k : κ) : Slots κ := ⟨s.records.insert k s.count, s.count + 1⟩

def relabel (m : OrderedMap κ ℕ) (last slot : ℕ) : OrderedMap κ ℕ where
  entries := relabelEntries last slot m.entries
  sorted := by
    have hkeys := pairwise_map.mpr m.sorted
    rw [← relabelEntries_keys last slot] at hkeys
    exact pairwise_map.mp hkeys

def remove (s : Slots κ) (k : κ) : Slots κ :=
  match s.records.find k with
  | none => s
  | some e =>
    let last := s.count - 1
    let records := if e.2 = last then s.records else relabel s.records last e.2
    ⟨records.erase k, last⟩

def Exact (s : Slots κ) : Prop := (s.records.entries.map Prod.snd).Perm (range s.count)

section Exact

variable {s : Slots κ} {k : κ} {slot : ℕ}

theorem Exact.slot_lt (h : s.Exact) {e : κ × ℕ} (he : e ∈ s.records) : e.2 < s.count :=
  mem_range.mp (h.subset (mem_map_of_mem he))

theorem Exact.slots_nodup (h : s.Exact) : (s.records.entries.map Prod.snd).Nodup :=
  h.nodup_iff.mpr nodup_range

theorem Exact.eq_of_slot_eq (h : s.Exact) {e f : κ × ℕ} (he : e ∈ s.records)
    (hf : f ∈ s.records) (heq : e.2 = f.2) : e = f :=
  inj_on_of_nodup_map h.slots_nodup he hf heq

theorem Exact.slot_owned (h : s.Exact) {i : ℕ} (hi : i < s.count) : ∃ e ∈ s.records, e.2 = i :=
  mem_map.mp (h.symm.subset (mem_range.mpr hi))

theorem Exact.size_eq (h : s.Exact) : s.records.size = s.count := by
  simpa [OrderedMap.size] using h.length_eq

theorem empty_exact : (empty : Slots κ).Exact := .nil

theorem Exact.push (h : s.Exact) (hfresh : ∀ e ∈ s.records, e.1 ≠ k) : (s.push k).Exact := by
  grind [push, Exact, OrderedMap.insert_perm]

theorem moved_perm {last : ℕ} {l : List ℕ} (h : (slot :: l).Perm (range (last + 1))) :
    (l.map (moved last slot)).Perm (range last) := by
  have hnodup : (slot :: l).Nodup := h.nodup_iff.mpr nodup_range
  rw [nodup_cons] at hnodup
  obtain ⟨hnot, hl⟩ := hnodup
  have hmem : ∀ j, j = slot ∨ j ∈ l ↔ j < last + 1 := by
    intro j
    rw [← mem_cons, h.mem_iff, mem_range]
  have hinj : ∀ x ∈ l, ∀ y ∈ l, moved last slot x = moved last slot y → x = y := by
    grind [moved]
  rw [perm_ext_iff_of_nodup (hl.map_on hinj) nodup_range]
  intro i
  rw [mem_map, mem_range]
  constructor
  · grind [moved]
  · intro hi
    by_cases his : i = slot
    · have hlast : last ∈ l := ((hmem last).mpr (by omega)).resolve_left (by omega)
      exact ⟨last, hlast, by simp [moved, his]⟩
    · have hil : i ∈ l := ((hmem i).mpr (by omega)).resolve_left his
      exact ⟨i, hil, by simp [moved, hi.ne]⟩

theorem Exact.count_pos (h : s.Exact) {e : κ × ℕ} (he : e ∈ s.records) : 0 < s.count :=
  Nat.zero_lt_of_lt (h.slot_lt he)

theorem remove_of_mem (he : (k, slot) ∈ s.records) : s.remove k =
      ⟨(if slot = s.count - 1 then s.records else relabel s.records (s.count - 1) slot).erase k,
        s.count - 1⟩ := by
  unfold remove
  rw [OrderedMap.find_some_iff.mpr ⟨he, rfl⟩]

section

variable (h : s.Exact) (he : (k, slot) ∈ s.records)
include h he

theorem Exact.remove_entries :
    (s.remove k).records.entries =
      (s.records.erase k).entries.map (fun e => (e.1, moved (s.count - 1) slot e.2)) := by
  rw [remove_of_mem he]
  dsimp only
  split_ifs with hlast
  · -- no other record has the last slot
    refine ((map_congr_left (fun x hx => ?_)).trans (map_id _)).symm
    obtain ⟨hx, hkey⟩ := mem_erase.mp hx
    have hne : x.2 ≠ s.count - 1 := by
      intro heq
      exact hkey (congrArg Prod.fst (h.eq_of_slot_eq hx he (heq.trans hlast.symm)))
    simp [moved, hne]
  · simp only [OrderedMap.erase, relabel, relabelEntries_eq_map h.slots_nodup, filter_map]
    rfl

theorem Exact.remove : (s.remove k).Exact := by
  have hcount : (s.remove k).count = s.count - 1 := by rw [remove_of_mem he]
  have hpos := h.count_pos he
  unfold Exact
  rw [h.remove_entries he, hcount, map_map]
  have hrest := (((OrderedMap.erase_perm he).map Prod.snd).symm.trans h)
  rw [map_cons, ← Nat.sub_add_cancel hpos] at hrest
  simpa [map_map, Function.comp_def] using moved_perm hrest

theorem Exact.mem_remove {a : κ} {i : ℕ} :
    (a, i) ∈ (s.remove k).records ↔
      a ≠ k ∧ ∃ j, (a, j) ∈ s.records ∧ moved (s.count - 1) slot j = i := by
  rw [OrderedMap.mem_def, h.remove_entries he, mem_map]
  constructor
  · rintro ⟨⟨b, j⟩, hj, heq⟩
    obtain ⟨hj, hkey⟩ := mem_erase.mp hj
    cases heq
    exact ⟨hkey, j, hj, rfl⟩
  · rintro ⟨hkey, j, hj, rfl⟩
    exact ⟨(a, j), mem_erase.mpr ⟨hj, hkey⟩, rfl⟩

end

theorem remove_push (hfresh : ∀ e ∈ s.records, e.1 ≠ k) : (s.push k).remove k = s := by
  have he : (k, s.count) ∈ (s.push k).records := mem_insert.mpr (.inl rfl)
  rw [remove_of_mem he]
  simp [push, OrderedMap.erase_insert hfresh]

end Exact

structure Shows (s : Slots κ) (live : OrderedMap κ β) (row : κ → β → ℕ → Prop) : Prop where
  exact : s.Exact
  keys : s.records.SameKeys live
  rows : ∀ {a i b}, (a, i) ∈ s.records → (a, b) ∈ live → row a b i

namespace Shows

variable {s : Slots κ} {live : OrderedMap κ β} {row row' : κ → β → ℕ → Prop} {k : κ} {b : β}

theorem empty : Shows (Slots.empty : Slots κ) (.empty : OrderedMap κ β) row where
  exact := empty_exact
  keys _ := by simp [Slots.empty]
  rows h _ := absurd h (by simp [Slots.empty])

theorem push (h : s.Shows live row) (hfresh : ∀ e ∈ live, e.1 ≠ k) (hnew : row' k b s.count)
    (hold : ∀ a c, ∀ i < s.count, row a c i → row' a c i) :
    (s.push k).Shows (live.insert k b) row' := by
  refine ⟨h.exact.push (h.keys.fresh hfresh), h.keys.insert s.count b, fun {a i c} hrec hlive => ?_⟩
  rcases mem_insert.mp hrec with heq | ⟨hrec, hak⟩
  · cases heq
    rcases mem_insert.mp hlive with heq | ⟨-, hne⟩
    · cases heq
      exact hnew
    · exact absurd rfl hne
  · rcases mem_insert.mp hlive with heq | ⟨hlive, -⟩
    · cases heq
      exact absurd rfl hak
    · exact hold a c i (h.exact.slot_lt hrec) (h.rows hrec hlive)

theorem remove {slot : ℕ} (h : s.Shows live row) (he : (k, slot) ∈ s.records)
    (hmoved : ∀ a c, row a c (s.count - 1) → row' a c slot)
    (hold : ∀ a c, ∀ i < s.count, i ≠ slot → row a c i → row' a c i) :
    (s.remove k).Shows (live.erase k) row' := by
  refine ⟨h.exact.remove he, fun a => ?_, fun {a i c} hrec hlive => ?_⟩
  · simp only [h.exact.mem_remove he, mem_erase]
    rw [exists_and_left, exists_and_right, and_comm]
    refine and_congr_left fun _ => ?_
    rw [← h.keys a]
    constructor
    · rintro ⟨i, j, hj, -⟩
      exact ⟨j, hj⟩
    · rintro ⟨j, hj⟩
      exact ⟨_, j, hj, rfl⟩
  · obtain ⟨hak, j, hj, rfl⟩ := (h.exact.mem_remove he).mp hrec
    obtain ⟨hlive, -⟩ := mem_erase.mp hlive
    have hrow := h.rows hj hlive
    unfold moved
    split_ifs with hlast
    · exact hmoved a c (hlast ▸ hrow)
    · refine hold a c j (h.exact.slot_lt hj) ?_ hrow
      rintro rfl
      exact hak (congrArg Prod.fst (h.exact.eq_of_slot_eq hj he rfl))

theorem recorded (h : s.Shows live row) {a : κ} {c : β} (hlive : (a, c) ∈ live) :
    ∃ i, (a, i) ∈ s.records :=
  (h.keys a).mpr ⟨c, hlive⟩

section Search

variable {p : ℕ → Bool} {hit : κ × β → Prop}

section

variable (h : s.Shows live row)
  (hp : ∀ a c i, (a, c) ∈ live → row a c i → (p i = true ↔ hit (a, c)))
include h hp

theorem find_hit (huniq : ∀ e ∈ live, ∀ f ∈ live, hit e → hit f → e = f) {a : κ} {c : β}
    (hlive : (a, c) ∈ live) (hhit : hit (a, c)) :
    ∃ i, (range s.count).find? p = some i ∧ row a c i := by
  cases hfind : (range s.count).find? p with
  | none =>
    obtain ⟨i, hi⟩ := h.recorded hlive
    have hlt := mem_range.mpr (h.exact.slot_lt hi)
    exact absurd ((hp a c i hlive (h.rows hi hlive)).mpr hhit) (find?_eq_none.mp hfind i hlt)
  | some i =>
    have hi := mem_range.mp (mem_of_find?_eq_some hfind)
    obtain ⟨⟨a', j⟩, he, rfl⟩ := h.exact.slot_owned hi
    obtain ⟨c', hlive'⟩ := (h.keys a').mp ⟨j, he⟩
    have hrow := h.rows he hlive'
    have hhit' := (hp a' c' j hlive' hrow).mp (find?_some hfind)
    cases huniq _ hlive _ hlive' hhit hhit'
    exact ⟨j, rfl, hrow⟩

theorem find_no_hit (hnone : ∀ e ∈ live, ¬ hit e) : (range s.count).find? p = none := by
  rw [find?_eq_none]
  intro i hi htrue
  obtain ⟨⟨a, j⟩, he, rfl⟩ := h.exact.slot_owned (mem_range.mp hi)
  obtain ⟨c, hlive⟩ := (h.keys a).mp ⟨j, he⟩
  exact hnone _ hlive ((hp a c j hlive (h.rows he hlive)).mp htrue)

end

end Search

end Shows

end Slots

end CompactSlots
