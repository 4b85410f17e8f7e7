import WatchHistory.Proofs.Fallible
import WatchHistory.Proofs.Key.Codec

/-!
# Keys of any table

A text is read as a key of the table that it names in its second segment.

* `parse_eq_ok_iff`, `parse_eq_error_iff`: what is read, and for which fault a text is refused.
* `parse_as_tables`: the outcome is the same as if every table tried to read the text.
-/

set_option autoImplicit false

namespace WatchHistory

/-! ## Names of tables -/

theorem Table.ofName?_eq_some_iff {name : String} {t : Table} :
    Table.ofName? name = some t ↔ t.name = name := by
  refine ⟨fun h => by simpa using List.find?_some h, fun h => ?_⟩
  subst h
  cases t <;> decide

theorem Table.ofName?_eq_none_iff {name : String} :
    Table.ofName? name = none ↔ ∀ t : Table, t.name ≠ name := by
  simp [Table.ofName?, Table.mem_all]

namespace AnyKey

variable {text : String} {t : Table} {k : Key t}

theorem tableName_of_parse (h : Key.parse t text = .ok k) : t.name = tableName text := by
  obtain ⟨last, hsplit, -⟩ := Key.parse_eq_ok_iff.mp h
  rw [tableName, hsplit]
  simp

theorem parse_of_tableName (h : t.name = tableName text) :
    AnyKey.parse text = (Key.parse t text).map (AnyKey.mk t) := by
  rw [AnyKey.parse, Table.ofName?_eq_some_iff.mpr h]

theorem parse_of_unknown (h : ∀ t : Table, t.name ≠ tableName text) :
    AnyKey.parse text = .error (.unknownTable (tableName text) text) := by
  rw [AnyKey.parse, Table.ofName?_eq_none_iff.mpr h]

/-! ## What is read -/

/-- `AnyKey.parse` reads a text as the key of the table that it names, and of no other. -/
theorem parse_eq_ok_iff : AnyKey.parse text = .ok ⟨t, k⟩ ↔ Key.parse t text = .ok k := by
  refine ⟨fun h => ?_, fun h => ?_⟩
  · by_cases hknown : ∃ u : Table, u.name = tableName text
    · obtain ⟨u, hu⟩ := hknown
      rw [parse_of_tableName hu] at h
      obtain ⟨k', hk', hsame⟩ := map_eq_ok.mp h
      cases hsame
      exact hk'
    · rw [parse_of_unknown fun u hu => hknown ⟨u, hu⟩] at h
      cases h
  · rw [parse_of_tableName (tableName_of_parse h), h]
    rfl

/-- Whether a text is refused for this fault: the table that it names finds it, or no table has the
name. -/
def Refused (text : String) (fault : KeyFault) : Prop :=
  (∃ t : Table, t.name = tableName text ∧ Key.parse t text = .error fault) ∨
    (∀ t : Table, t.name ≠ tableName text) ∧ fault = .unknownTable (tableName text) text

theorem parse_eq_error_iff {fault : KeyFault} :
    AnyKey.parse text = .error fault ↔ Refused text fault := by
  by_cases hknown : ∃ t : Table, t.name = tableName text
  · obtain ⟨t, ht⟩ := hknown
    have hone : ∀ u : Table, u.name = tableName text ↔ t = u := fun u =>
      ⟨fun hu => Table.name_injective (ht.trans hu.symm), fun hu => hu ▸ ht⟩
    have hsome : ¬ ∀ u : Table, u.name ≠ tableName text := fun h => h t ht
    rw [parse_of_tableName ht]
    simp only [Refused, hone, exists_eq_left', hsome, false_and, or_false]
    cases Key.parse t text <;> simp [Except.map]
  · have hnone : ∀ t : Table, t.name ≠ tableName text := fun t ht => hknown ⟨t, ht⟩
    rw [parse_of_unknown hnone]
    simp [Refused, hnone, eq_comm]

theorem exists_parse_iff :
    (∃ found, AnyKey.parse text = .ok found) ↔ ∃ t k, Key.parse t text = .ok k := by
  refine ⟨fun h => ?_, fun h => ?_⟩
  · obtain ⟨⟨t, k⟩, h⟩ := h
    exact ⟨t, k, parse_eq_ok_iff.mp h⟩
  · obtain ⟨t, k, h⟩ := h
    exact ⟨⟨t, k⟩, parse_eq_ok_iff.mpr h⟩

/-- **A text is read as if every table tried it.** Something is read exactly if a table reads the
text; then no other table does, and what is read is the key of that table, with its partition and
its text. If no table reads the text, it is no key, for the fault that the table it names has found,
or because it names none. -/
theorem parse_as_tables (text : String) :
    ((∃ found, AnyKey.parse text = .ok found) ↔ ∃ t k, Key.parse t text = .ok k) ∧
    (∀ (t : Table) (k : Key t), Key.parse t text = .ok k →
      (∀ u, u ≠ t → ∃ fault, Key.parse u text = .error fault) ∧
      ∃ found, AnyKey.parse text = .ok found ∧ found = ⟨t, k⟩ ∧
        found.partition = k.partition ∧ found.render = k.render) ∧
    ((∀ t, ∃ fault, Key.parse t text = .error fault) →
      ∃ fault, (AnyKey.parse text).mapError .badKey = .error (StoreError.badKey fault) ∧
        Refused text fault) := by
  refine ⟨exists_parse_iff, fun t k hk => ⟨fun u hu => ?_, ?_⟩, fun hall => ?_⟩
  · cases hother : Key.parse u text with
    | error fault => exact ⟨fault, rfl⟩
    | ok k' => exact absurd (Key.table_eq_of_parse hother hk) hu
  · exact ⟨⟨t, k⟩, parse_eq_ok_iff.mpr hk, rfl, rfl, rfl⟩
  · cases hparse : AnyKey.parse text with
    | error fault => exact ⟨fault, rfl, parse_eq_error_iff.mp hparse⟩
    | ok found =>
      obtain ⟨t, k, hk⟩ := exists_parse_iff.mp ⟨found, hparse⟩
      obtain ⟨fault, hfault⟩ := hall t
      cases hk.symm.trans hfault

/-- The key of a pod's activity is read by that table alone. The same segments under the name of the
observations are refused, as the uid is no time. -/
theorem parse_as_tables_webActivity :
    (∃ k : Key .activity, Key.parse .activity "/watchactivity/000000000000/Pod/ns/web/u" = .ok k ∧
      (∀ u, u ≠ .activity →
        ∃ fault, Key.parse u "/watchactivity/000000000000/Pod/ns/web/u" = .error fault) ∧
      AnyKey.parse "/watchactivity/000000000000/Pod/ns/web/u" = .ok ⟨.activity, k⟩) ∧
    (∀ t, ∃ fault, Key.parse t "/watch/000000000000/Pod/ns/web/u" = .error fault) ∧
    ∃ fault, AnyKey.parse "/watch/000000000000/Pod/ns/web/u" = .error fault ∧
      Refused "/watch/000000000000/Pod/ns/web/u" fault := by
  have hread : Key.parse .activity "/watchactivity/000000000000/Pod/ns/web/u" =
      .ok ⟨"000000000000", "Pod", "ns", "web", "u"⟩ := eq_ok_of_toOption (by decide +kernel)
  have hrefused : ∀ t, ∃ fault, Key.parse t "/watch/000000000000/Pod/ns/web/u" = .error fault := by
    intro t
    cases t <;> exact ⟨_, rfl⟩
  obtain ⟨hothers, found, hfound, rfl, -⟩ := (parse_as_tables _).2.1 _ _ hread
  obtain ⟨fault, hfault, hwhy⟩ := (parse_as_tables _).2.2 hrefused
  obtain ⟨fault', hparse, hsame⟩ := mapError_eq_error.mp hfault
  obtain rfl := StoreError.badKey.inj hsame
  exact ⟨⟨_, hread, hothers, hfound⟩, hrefused, _, hparse, hwhy⟩

end AnyKey

end WatchHistory
