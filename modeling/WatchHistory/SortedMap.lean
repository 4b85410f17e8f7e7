import WatchHistory.Order

/-!
# Maps kept in key order

A `SortedMap κ ν` is the list of its entries, strictly ascending by key, so two maps with the same
entries are the same map. Its view is `get?`:

* `get?_insert`, `get?_erase` and `get?_filter` say what each operation does to it;
* `mem_iff_get?` ties it to membership in `entries`;
* `ext_get?` says that maps with the same view are equal.
-/

set_option autoImplicit false

namespace WatchHistory

/-- A finite map whose entries ascend strictly by key. -/
structure SortedMap (κ ν : Type) [StrictOrder κ] where
  entries : List (κ × ν)
  ascending : entries.Pairwise fun a b => a.1 < b.1

namespace SortedMap

variable {κ ν : Type} [StrictOrder κ]

instance [DecidableEq κ] [DecidableEq ν] : DecidableEq (SortedMap κ ν) := fun a b =>
  if h : a.entries = b.entries then
    isTrue (by cases a; cases b; cases h; rfl)
  else
    isFalse fun h' => h (congrArg entries h')

theorem ext {m n : SortedMap κ ν} (h : m.entries = n.entries) : m = n := by
  cases m; cases n; cases h; rfl

/-- The map without entries. -/
def empty : SortedMap κ ν := ⟨[], .nil⟩

instance : Inhabited (SortedMap κ ν) := ⟨empty⟩

def keys (m : SortedMap κ ν) : List κ := m.entries.map Prod.fst

def values (m : SortedMap κ ν) : List ν := m.entries.map Prod.snd

def size (m : SortedMap κ ν) : Nat := m.entries.length

/-- The value under `k`. -/
def get? (m : SortedMap κ ν) (k : κ) : Option ν :=
  (m.entries.find? fun e => !decide (e.1 < k) && !decide (k < e.1)).map Prod.snd

/-! ## Entries of an ascending list -/

/-- Put `v` under `k`, in place of the value there, if any. -/
def insertEntry (k : κ) (v : ν) : List (κ × ν) → List (κ × ν)
  | [] => [(k, v)]
  | e :: es =>
    if k < e.1 then (k, v) :: e :: es
    else if e.1 < k then e :: insertEntry k v es
    else (k, v) :: es

theorem mem_of_mem_insertEntry {k : κ} {v : ν} {e : κ × ν} {es : List (κ × ν)}
    (h : e ∈ insertEntry k v es) : e = (k, v) ∨ e ∈ es := by
  induction es with
  | nil => simpa [insertEntry] using h
  | cons d ds ih =>
    unfold insertEntry at h
    split at h
    · simpa using h
    · split at h
      · rcases List.mem_cons.mp h with h | h
        · exact .inr (h ▸ List.mem_cons_self)
        · exact (ih h).imp_right (List.mem_cons_of_mem _)
      · exact (List.mem_cons.mp h).imp_right (List.mem_cons_of_mem _)

theorem pairwise_insertEntry {k : κ} {v : ν} {es : List (κ × ν)}
    (h : es.Pairwise fun a b => a.1 < b.1) :
    (insertEntry k v es).Pairwise fun a b => a.1 < b.1 := by
  induction es with
  | nil => exact List.pairwise_singleton ..
  | cons d ds ih =>
    obtain ⟨hd, hds⟩ := List.pairwise_cons.mp h
    unfold insertEntry
    split
    · rename_i hlt
      refine List.pairwise_cons.mpr ⟨fun e he => ?_, h⟩
      rcases List.mem_cons.mp he with rfl | he
      · exact hlt
      · exact StrictOrder.trans hlt (hd e he)
    · rename_i hkd
      split
      · rename_i hdk
        refine List.pairwise_cons.mpr ⟨fun e he => ?_, ih hds⟩
        rcases mem_of_mem_insertEntry he with rfl | he
        · exact hdk
        · exact hd e he
      · rename_i hdk
        have hk : k = d.1 := StrictOrder.connex hkd hdk
        exact List.pairwise_cons.mpr ⟨fun e he => hk ▸ hd e he, hds⟩

/-! ## Changing a map -/

/-- Put `v` under `k`, in place of the value there, if any. -/
def insert (m : SortedMap κ ν) (k : κ) (v : ν) : SortedMap κ ν :=
  ⟨insertEntry k v m.entries, pairwise_insertEntry m.ascending⟩

/-- The entries that `keep` accepts. -/
def filter (m : SortedMap κ ν) (keep : κ → Bool) : SortedMap κ ν :=
  ⟨m.entries.filter fun e => keep e.1, m.ascending.filter _⟩

/-- The map without an entry for `k`. -/
def erase (m : SortedMap κ ν) (k : κ) : SortedMap κ ν :=
  m.filter fun x => decide (x < k) || decide (k < x)

/-- Replace the value under `k`, where an absent one counts as `initial`. -/
def alter (m : SortedMap κ ν) (k : κ) (initial : ν) (change : ν → ν) : SortedMap κ ν :=
  m.insert k (change ((m.get? k).getD initial))

/-- The map of a list of entries, where a later entry replaces an earlier one of the same key. -/
def ofList (es : List (κ × ν)) : SortedMap κ ν :=
  es.foldl (fun m e => m.insert e.1 e.2) empty

/-! ## The view -/

theorem eq_of_not_lt {a b : κ} : (!decide (a < b) && !decide (b < a)) = true ↔ a = b := by
  simp only [Bool.and_eq_true, Bool.not_eq_true', decide_eq_false_iff_not]
  exact ⟨fun h => StrictOrder.connex h.1 h.2,
    fun h => h ▸ ⟨StrictOrder.irrefl a, StrictOrder.irrefl a⟩⟩

theorem mem_iff_get? {m : SortedMap κ ν} {k : κ} {v : ν} :
    (k, v) ∈ m.entries ↔ m.get? k = some v := by
  unfold get?
  obtain ⟨es, h⟩ := m
  induction es with
  | nil => simp
  | cons e es ih =>
    obtain ⟨he, hes⟩ := List.pairwise_cons.mp h
    rw [List.find?_cons]
    by_cases hk : e.1 = k
    · rw [eq_of_not_lt.mpr hk]
      constructor
      · intro hm
        rcases List.mem_cons.mp hm with hm | hm
        · simp [← hm]
        · have hlt : e.1 < k := he (k, v) hm
          exact absurd (hk ▸ hlt) (StrictOrder.irrefl k)
      · intro hv
        have hv : e.2 = v := by simpa using hv
        exact hk ▸ hv ▸ List.mem_cons_self
    · rw [Bool.eq_false_iff.mpr (mt eq_of_not_lt.mp hk)]
      refine Iff.trans ⟨fun hm => ?_, List.mem_cons_of_mem _⟩ (ih hes)
      rcases List.mem_cons.mp hm with hm | hm
      · exact absurd (congrArg Prod.fst hm).symm hk
      · exact hm

@[simp] theorem get?_empty (k : κ) : (empty : SortedMap κ ν).get? k = none := rfl

theorem mem_insertEntry_self (k : κ) (v : ν) (es : List (κ × ν)) : (k, v) ∈ insertEntry k v es := by
  induction es with
  | nil => simp [insertEntry]
  | cons e es ih =>
    unfold insertEntry
    split
    · simp
    · split
      · exact List.mem_cons_of_mem _ ih
      · simp

theorem mem_insertEntry_of_ne {k : κ} {v : ν} {es : List (κ × ν)} {e : κ × ν} (he : e ∈ es)
    (hne : e.1 ≠ k) : e ∈ insertEntry k v es := by
  induction es with
  | nil => simp at he
  | cons d ds ih =>
    unfold insertEntry
    split
    · exact List.mem_cons_of_mem _ he
    · rename_i hkd
      split
      · rcases List.mem_cons.mp he with rfl | he
        · simp
        · exact List.mem_cons_of_mem _ (ih he)
      · rename_i hdk
        rcases List.mem_cons.mp he with rfl | he
        · exact absurd (StrictOrder.connex hdk hkd) hne
        · exact List.mem_cons_of_mem _ he

theorem get?_insert_self (m : SortedMap κ ν) (k : κ) (v : ν) : (m.insert k v).get? k = some v :=
  mem_iff_get?.mp (mem_insertEntry_self k v m.entries)

theorem get?_insert_of_ne (m : SortedMap κ ν) {k x : κ} (v : ν) (h : x ≠ k) :
    (m.insert k v).get? x = m.get? x := by
  refine Option.ext fun w => ?_
  rw [← mem_iff_get?, ← mem_iff_get?]
  constructor
  · intro hm
    rcases mem_of_mem_insertEntry hm with hm | hm
    · exact absurd (congrArg Prod.fst hm) h
    · exact hm
  · exact fun hm => mem_insertEntry_of_ne hm h

/-- A look-up after an insertion finds the new value under its key and the old ones elsewhere. -/
theorem get?_insert [DecidableEq κ] (m : SortedMap κ ν) (k x : κ) (v : ν) :
    (m.insert k v).get? x = if x = k then some v else m.get? x := by
  split
  · next h => exact h ▸ get?_insert_self m k v
  · next h => exact get?_insert_of_ne m v h

theorem get?_filter (m : SortedMap κ ν) (keep : κ → Bool) (k : κ) :
    (m.filter keep).get? k = if keep k then m.get? k else none := by
  refine Option.ext fun w => ?_
  rw [← mem_iff_get?]
  by_cases h : keep k = true
  · rw [if_pos h, ← mem_iff_get?]
    simp [filter, h]
  · simp [filter, h]

theorem get?_erase [DecidableEq κ] (m : SortedMap κ ν) (k x : κ) :
    (m.erase k).get? x = if x = k then none else m.get? x := by
  unfold erase
  rw [get?_filter]
  by_cases h : x = k
  · subst h
    simp [StrictOrder.irrefl]
  · rw [if_neg h, if_pos]
    by_cases hx : x < k
    · simp [hx]
    · simp [hx, Decidable.byContradiction fun hk => h (StrictOrder.connex hx hk)]

theorem get?_alter [DecidableEq κ] (m : SortedMap κ ν) (k x : κ) (initial : ν) (change : ν → ν) :
    (m.alter k initial change).get? x =
      if x = k then some (change ((m.get? k).getD initial)) else m.get? x :=
  get?_insert ..

/-- An ascending list is determined by its members. -/
theorem entries_eq_of_mem {es ds : List (κ × ν)} (he : es.Pairwise fun a b => a.1 < b.1)
    (hd : ds.Pairwise fun a b => a.1 < b.1) (h : ∀ e, e ∈ es ↔ e ∈ ds) : es = ds := by
  induction es generalizing ds with
  | nil =>
    cases ds with
    | nil => rfl
    | cons d ds => exact absurd ((h d).mpr List.mem_cons_self) (by simp)
  | cons e es ih =>
    obtain ⟨he₁, he₂⟩ := List.pairwise_cons.mp he
    cases ds with
    | nil => exact absurd ((h e).mp List.mem_cons_self) (by simp)
    | cons d ds =>
      obtain ⟨hd₁, hd₂⟩ := List.pairwise_cons.mp hd
      have hed : e = d := by
        rcases List.mem_cons.mp ((h e).mp List.mem_cons_self) with hm | hm
        · exact hm
        · rcases List.mem_cons.mp ((h d).mpr List.mem_cons_self) with hm' | hm'
          · exact hm'.symm
          · exact absurd (StrictOrder.trans (he₁ d hm') (hd₁ e hm)) (StrictOrder.irrefl _)
      subst hed
      refine congrArg (e :: ·) (ih he₂ hd₂ fun x => ⟨fun hx => ?_, fun hx => ?_⟩)
      · rcases List.mem_cons.mp ((h x).mp (List.mem_cons_of_mem _ hx)) with rfl | hm
        · exact absurd (he₁ x hx) (StrictOrder.irrefl _)
        · exact hm
      · rcases List.mem_cons.mp ((h x).mpr (List.mem_cons_of_mem _ hx)) with rfl | hm
        · exact absurd (hd₁ x hx) (StrictOrder.irrefl _)
        · exact hm

/-- Maps in which every look-up agrees are equal. -/
theorem ext_get? {m n : SortedMap κ ν} (h : ∀ k, m.get? k = n.get? k) : m = n :=
  ext (entries_eq_of_mem m.ascending n.ascending fun (k, v) => by
    rw [mem_iff_get?, mem_iff_get?, h])

end SortedMap

end WatchHistory
