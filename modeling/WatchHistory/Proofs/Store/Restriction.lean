import WatchHistory.Proofs.Key.RoundTrip
import WatchHistory.Proofs.Store.Partitions
import WatchHistory.Proofs.Store.Preceding

/-!
# The rows of one object

`Store.only` is what is left of a store without the rows of all other objects. What is asked of a
store about one object is answered by its own rows: single rows (`get_only`, `find?_only`), and the
last key before another one (`previousKey_only`). Writing a row of the object is writing it to its
own rows (`set_only`), and rows of other objects make no difference to them (`only_set_of_ne`).
-/

set_option autoImplicit false

namespace WatchHistory

open WatchHistory.Partition

/-- What an object is called. -/
structure ObjectName where
  kind : String
  /-- The namespace of the object. -/
  ns : String
  name : String
deriving DecidableEq

/-- The object that a key is of. -/
def Key.object {t : Table} (k : Key t) : ObjectName := ⟨k.kind, k.ns, k.name⟩

namespace Store

/-- The object that a text is a key of, if it is a complete key. -/
def objectOf? (text : String) : Option ObjectName :=
  (AnyKey.parse text).toOption.map fun k => k.key.object

/-- The rows of one object in every table. -/
def only (x : ObjectName) (s : Store) : Store := ⟨s.rows.filter fun text => objectOf? text = some x⟩

variable {g : Granularity} {admits : String → Prop} {s s' : Store} {t : Table} {x : ObjectName}
  {k c found : Key t}

theorem objectOf?_of_parse {text : String} (h : Key.parse t text = .ok k) :
    objectOf? text = some k.object := by
  unfold objectOf?
  rw [AnyKey.parse_eq_ok_iff.mpr h]
  rfl

theorem get?_only (x : ObjectName) (s : Store) (text : String) :
    (s.only x).get? text = if objectOf? text = some x then s.get? text else none := by
  unfold get? only
  rw [SortedMap.get?_filter]
  simp

theorem get?_of_get?_only {text row : String} (h : (s.only x).get? text = some row) :
    s.get? text = some row := by
  rw [get?_only] at h
  split at h
  · exact h
  · cases h

@[simp] theorem only_empty (x : ObjectName) : empty.only x = empty := by
  refine ext_get? fun text => ?_
  simp [get?_only]

/-! ## Single rows -/

theorem objectOf?_render (hsearch : Searchable k.kind k.ns k.name)
    (hp : '/' ∉ k.partition.toList) {k' : Key t} (h : Key.parse t k.render = .ok k') :
    objectOf? k.render = some k.object := by
  obtain ⟨hkind, hns, hname⟩ :=
    Key.named_of_parse_render hp hsearch.slash_kind hsearch.slash_ns hsearch.slash_name h
  rw [objectOf?_of_parse h, Key.object, Key.object, hkind, hns, hname]

theorem get_only (hsearch : Searchable k.kind k.ns k.name) (hp : '/' ∉ k.partition.toList) :
    (s.only k.object).get k = s.get k := by
  cases hparse : Key.parse t k.render with
  | error fault => simp [get, parseKey, hparse, bind, Except.bind]
  | ok k' => exact get_congr (by rw [get?_only, if_pos (objectOf?_render hsearch hp hparse)])

theorem find?_only (hsearch : Searchable k.kind k.ns k.name) (hp : '/' ∉ k.partition.toList) :
    (s.only k.object).find? k = s.find? k := by
  unfold find?
  rw [get_only hsearch hp]

theorem set_only (hsearch : Searchable k.kind k.ns k.name) (hp : '/' ∉ k.partition.toList)
    (row : t.Row) : (s.only k.object).set k row = (s.set k row).map (only k.object) := by
  cases hparse : Key.parse t k.render with
  | error fault => simp [set, parseKey, hparse, bind, Except.bind, Except.map]
  | ok k' =>
    have hobject := objectOf?_render hsearch hp hparse
    have hinsert : (s.only k.object).insert k.render (t.write row) =
        (s.insert k.render (t.write row)).only k.object := by
      refine ext_get? fun text => ?_
      rw [get?_insert, get?_only, get?_only, get?_insert]
      by_cases htext : text = k.render
      · subst htext
        simp [hobject]
      · simp [htext]
    rw [set_of_parse hparse, set_of_parse hparse, hinsert]
    rfl

theorem only_set_of_ne (hsearch : Searchable k.kind k.ns k.name) (hp : '/' ∉ k.partition.toList)
    (hne : k.object ≠ x) {row : t.Row} (h : s.set k row = .ok s') : s'.only x = s.only x := by
  obtain ⟨⟨k', hk'⟩, -⟩ := set_eq_ok.mp h
  have hobject := objectOf?_render hsearch hp hk'
  refine ext_get? fun text => ?_
  rw [get?_only, get?_only, get?_set h]
  by_cases htext : text = k.render
  · subst htext
    simp [hobject, hne]
  · simp [htext]

/-! ## The last key before another -/

theorem Filled.only (h : s.Filled g admits) (x : ObjectName) : (s.only x).Filled g admits :=
  h.mono fun _ _ => get?_of_get?_only

section

variable {P : String → Key t → Prop}

theorem hasKey_only (hP : ∀ text k, P text k → k.object = x) :
    (s.only x).HasKey t P ↔ s.HasKey t P := by
  constructor
  · intro h
    obtain ⟨text, row, k, hrow, hk, hPk⟩ := h
    exact ⟨text, row, k, get?_of_get?_only hrow, hk, hPk⟩
  · intro h
    obtain ⟨text, row, k, hrow, hk, hPk⟩ := h
    refine ⟨text, row, k, ?_, hk, hPk⟩
    rw [get?_only, if_pos (hP text k hPk ▸ objectOf?_of_parse hk), hrow]

theorem lastKey_only (hP : ∀ text k, P text k → k.object = x) :
    (s.only x).LastKey P found ↔ s.LastKey P found := by
  have hget : ∀ {text : String} {k : Key t}, Key.parse t text = .ok k → P text k →
      (s.only x).get? text = s.get? text := by
    intro text k hk hPk
    rw [get?_only, if_pos (hP text k hPk ▸ objectOf?_of_parse hk)]
  constructor
  · intro h
    obtain ⟨text, row, hrow, hk, hPk, hgreatest⟩ := h
    exact ⟨text, row, get?_of_get?_only hrow, hk, hPk, fun text' row' k' hrow' hk' hPk' =>
      hgreatest text' row' k' ((hget hk' hPk').trans hrow') hk' hPk'⟩
  · intro h
    obtain ⟨text, row, hrow, hk, hPk, hgreatest⟩ := h
    exact ⟨text, row, (hget hk hPk).trans hrow, hk, hPk, fun text' row' k' hrow' =>
      hgreatest text' row' k' (get?_of_get?_only hrow')⟩

end

/-- A search whose comparator names an object goes through that object's rows only. -/
theorem previousKey_only (hs : s.Filled g admits) (hc : c.Comparable) {second : Int}
    (hp : k.partition = idAt second) (hagrees : ∀ k', c.Agrees k' → k'.object = x) :
    (s.only x).previousKey g k c = s.previousKey g k c := by
  have hP : ∀ text k', Searched k c text k' → k'.object = x :=
    fun text k' hsearched => hagrees k' hsearched.1
  obtain ⟨hfound, hnone⟩ :=
    previousKey_iff (hs.only x) hc hp fun text row k' _ _ => Iff.rfl (a := Searched k c text k')
  rcases previousKey_cases hs hc hp with ⟨found, heq, hlast⟩ | ⟨heq, hnot⟩
  · rw [heq]
    exact (hfound found).mpr ((lastKey_only hP).mpr hlast)
  · rw [heq]
    exact hnone.mpr (mt (hasKey_only hP).mp hnot)

end Store

end WatchHistory
