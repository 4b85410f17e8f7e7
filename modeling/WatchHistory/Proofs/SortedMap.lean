import Mathlib.Algebra.Order.Ring.Int
import Mathlib.Data.List.Perm.Subperm
import WatchHistory.SortedMap

/-!
# Sorted maps as lists

* `SortedMap.ofList_entries`: a map is the map of its entries, because an entry that comes after all
  others is put at the end (`insertEntry_of_lt`).
* `SortedMap.perm_entries_ofList`: the map of a list without repeated keys has its entries.
* `SortedMap.sumBy_insert`: how an insertion changes the sum over the entries.
* `SortedMap.keys_eq_of_mem`: ascending keys are determined by their members.
-/

set_option autoImplicit false

namespace WatchHistory.SortedMap

variable {κ ν : Type} [StrictOrder κ]

theorem insertEntry_of_lt {k : κ} {v : ν} {es : List (κ × ν)} (h : ∀ e ∈ es, e.1 < k) :
    insertEntry k v es = es ++ [(k, v)] := by
  induction es with
  | nil => rfl
  | cons e es ih =>
    have he : e.1 < k := h e List.mem_cons_self
    have hk : ¬ k < e.1 := fun hk => StrictOrder.irrefl k (StrictOrder.trans hk he)
    rw [insertEntry, if_neg hk, if_pos he, ih fun d hd => h d (List.mem_cons_of_mem _ hd)]
    rfl

theorem entries_foldl_insert {es : List (κ × ν)} {m : SortedMap κ ν}
    (h : (m.entries ++ es).Pairwise fun a b => a.1 < b.1) :
    (es.foldl (fun m e => m.insert e.1 e.2) m).entries = m.entries ++ es := by
  induction es generalizing m with
  | nil => simp
  | cons e es ih =>
    have hlast : ∀ d ∈ m.entries, d.1 < e.1 :=
      fun d hd => (List.pairwise_append.mp h).2.2 d hd e List.mem_cons_self
    have hinsert : (m.insert e.1 e.2).entries = m.entries ++ [e] := insertEntry_of_lt hlast
    rw [List.foldl_cons, ih (by rw [hinsert]; simpa using h), hinsert]
    simp

theorem ofList_entries (m : SortedMap κ ν) : ofList m.entries = m :=
  ext (entries_foldl_insert (m := empty) m.ascending)

/-! ## Keys -/

theorem mem_keys_iff {m : SortedMap κ ν} {k : κ} : k ∈ m.keys ↔ ∃ v, m.get? k = some v := by
  simp only [keys, List.mem_map, ← mem_iff_get?]
  constructor
  · rintro ⟨⟨k', v⟩, hmem, rfl⟩
    exact ⟨v, hmem⟩
  · rintro ⟨v, hmem⟩
    exact ⟨(k, v), hmem, rfl⟩

theorem pairwise_keys (m : SortedMap κ ν) : m.keys.Pairwise fun a b => a < b :=
  List.pairwise_map.mpr m.ascending

theorem mem_keys_alter [DecidableEq κ] {m : SortedMap κ ν} {k x : κ} {initial : ν}
    {change : ν → ν} : x ∈ (m.alter k initial change).keys ↔ x = k ∨ x ∈ m.keys := by
  rw [mem_keys_iff, mem_keys_iff, get?_alter]
  by_cases hx : x = k <;> simp [hx]

theorem keys_eq_of_mem {as bs : List κ} (ha : as.Pairwise fun a b => a < b)
    (hb : bs.Pairwise fun a b => a < b) (h : ∀ k, k ∈ as ↔ k ∈ bs) : as = bs := by
  have hunit : as.map (fun k => (k, ())) = bs.map (fun k => (k, ())) :=
    entries_eq_of_mem (List.pairwise_map.mpr ha) (List.pairwise_map.mpr hb) fun e => by
      simp only [List.mem_map, h]
  have hkeys := congrArg (List.map Prod.fst) hunit
  rw [List.map_map, List.map_map] at hkeys
  simpa [Function.comp_def] using hkeys

theorem mem_entries_insert {m : SortedMap κ ν} {k : κ} {v : ν} {e : κ × ν}
    (h : e ∈ (m.insert k v).entries) : e = (k, v) ∨ e ∈ m.entries :=
  mem_of_mem_insertEntry h

theorem mem_entries_alter [DecidableEq κ] {m : SortedMap κ ν} {k : κ} {initial : ν}
    {change : ν → ν} {e : κ × ν} (h : e ∈ (m.alter k initial change).entries) :
    e = (k, change ((m.get? k).getD initial)) ∨ e ∈ m.entries :=
  mem_entries_insert h

/-- A map that is part of another one and not smaller is that one. -/
theorem eq_of_size_le {m n : SortedMap κ ν} (h : ∀ k v, m.get? k = some v → n.get? k = some v)
    (hsize : n.size ≤ m.size) : m = n := by
  have hnodup : m.entries.Nodup := m.ascending.imp fun {a b} hlt (heq : a = b) =>
    StrictOrder.irrefl b.1 (heq ▸ hlt)
  have hsub : m.entries ⊆ n.entries := fun e he => mem_iff_get?.mpr (h _ _ (mem_iff_get?.mp he))
  have hperm := (hnodup.subperm hsub).perm_of_length_le hsize
  exact ext_get? fun k => Option.ext fun v => by
    rw [← mem_iff_get?, ← mem_iff_get?, hperm.mem_iff]

/-! ## Maps of lists -/

theorem perm_insertEntry {k : κ} {v : ν} {es : List (κ × ν)} (h : ∀ e ∈ es, e.1 ≠ k) :
    (insertEntry k v es).Perm ((k, v) :: es) := by
  induction es with
  | nil => exact .refl _
  | cons e es ih =>
    unfold insertEntry
    split
    · exact .refl _
    · next hke =>
      split
      · exact ((ih fun d hd => h d (List.mem_cons_of_mem _ hd)).cons e).trans (.swap _ _ _)
      · next hek => exact absurd (StrictOrder.connex hek hke) (h e List.mem_cons_self)

theorem perm_entries_foldl_insert {es : List (κ × ν)} {m : SortedMap κ ν}
    (h : ((m.entries ++ es).map Prod.fst).Nodup) :
    (es.foldl (fun m e => m.insert e.1 e.2) m).entries.Perm (m.entries ++ es) := by
  induction es generalizing m with
  | nil => simp
  | cons e es ih =>
    have hperm : ((m.insert e.1 e.2).entries ++ es).Perm (m.entries ++ e :: es) := by
      have hne : ∀ d ∈ m.entries, d.1 ≠ e.1 := by
        rw [List.map_append, List.map_cons] at h
        exact fun d hd => (List.nodup_append.mp h).2.2 d.1 (List.mem_map_of_mem hd) e.1
          List.mem_cons_self
      exact ((perm_insertEntry hne).append_right es).trans List.perm_middle.symm
    exact (ih ((hperm.map Prod.fst).nodup_iff.mpr h)).trans hperm

theorem perm_entries_ofList {es : List (κ × ν)} (h : (es.map Prod.fst).Nodup) :
    (ofList es).entries.Perm es :=
  perm_entries_foldl_insert (m := empty) h

/-! ## Sums -/

/-- The sum of a number for every entry. -/
def sumBy (m : SortedMap κ ν) (f : κ → ν → Int) : Int := (m.entries.map fun e => f e.1 e.2).sum

@[simp] theorem sumBy_empty (f : κ → ν → Int) : (empty : SortedMap κ ν).sumBy f = 0 := rfl

/-- An insertion changes a sum by what it puts in, and takes out of it what was there. -/
theorem sumBy_insert (m : SortedMap κ ν) (k : κ) (v : ν) (f : κ → ν → Int) :
    (m.insert k v).sumBy f = m.sumBy f - ((m.get? k).map (f k)).getD 0 + f k v := by
  obtain ⟨es, hes⟩ := m
  unfold sumBy insert get?
  dsimp only
  induction es with
  | nil => simp [insertEntry]
  | cons e es ih =>
    obtain ⟨he, hes'⟩ := List.pairwise_cons.mp hes
    rw [insertEntry, List.find?_cons]
    by_cases hk : k < e.1
    · have hnone : es.find? (fun e => !decide (e.1 < k) && !decide (k < e.1)) = none := by
        refine List.find?_eq_none.mpr fun d hd => ?_
        have hkd : k < d.1 := StrictOrder.trans hk (he d hd)
        simp [hkd]
      simp [hk, hnone]
      omega
    · by_cases hk' : e.1 < k
      · have hsum := ih hes'
        simp only [hk, if_false, hk', if_true, List.map_cons, List.sum_cons, decide_true,
          Bool.not_true, Bool.false_and]
        omega
      · have hkey : e.1 = k := StrictOrder.connex hk' hk
        subst hkey
        simp [StrictOrder.irrefl]
        omega

theorem sumBy_alter [DecidableEq κ] (m : SortedMap κ ν) (k : κ) (initial : ν) (change : ν → ν)
    (f : κ → ν → Int) (h : f k initial = 0) :
    (m.alter k initial change).sumBy f =
      m.sumBy f - f k ((m.get? k).getD initial) + f k (change ((m.get? k).getD initial)) := by
  rw [alter, sumBy_insert]
  cases m.get? k <;> simp [h]

end WatchHistory.SortedMap
