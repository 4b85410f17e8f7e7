import WatchHistory.Proofs.Key.Stem
import WatchHistory.Proofs.Store.Rows

/-!
# Stores filled row by row

What is known of a store whose rows were all written under keys made of an instant and an object
(`Store.Filled`): every text in it spells the key that is read of it, and lies in a partition on
the grid that has a successor (`Filled.exists_gridded`).
-/

set_option autoImplicit false

namespace WatchHistory

open WatchHistory.Partition

/-- Whether the last segment of a key tells the instant that the key is made of. Uids tell none. -/
def Table.Tells : (t : Table) → Instant → t.Last → Prop
  | .watch, time, last => last = some time
  | .summary, _, _ | .eventCount, _, _ | .activity, _, _ | .relation, _, _ => True

/-- Whether every row was written under the key of an object and an instant of the years from 1970
to 9999, of a kind that is admitted. -/
def Store.Filled (g : Granularity) (admits : String → Prop) (s : Store) : Prop :=
  ∀ key text, s.get? key = some text →
    ∃ (t : Table) (time : Instant) (kind ns name : String) (last : t.Last) (row : t.Row),
      (0 ≤ time.seconds ∧ time.seconds < 253402300800) ∧ t.Tells time last ∧ admits kind ∧
      key = (Key.within g t time kind ns name last).render ∧
      (∃ k, Store.parseKey t key = .ok k) ∧ text = t.write row

/-- Whether a text spells a key of a partition on the grid that has a successor. -/
structure Key.Gridded (g : Granularity) (t : Table) (text : String) (k : Key t) (second : Int) :
    Prop where
  spells : Key.Spells text k
  partition : k.partition = idAt second
  inRange : InRange second
  dvd : g.seconds ∣ second
  next : InRange (second + g.seconds)

namespace Store

variable {g : Granularity} {admits : String → Prop} {s : Store}

theorem filled_empty (g : Granularity) (admits : String → Prop) : empty.Filled g admits := nofun

namespace Filled

theorem mono (h : s.Filled g admits) {s' : Store}
    (hless : ∀ key text, s'.get? key = some text → s.get? key = some text) :
    s'.Filled g admits :=
  fun key text htext => h key text (hless key text htext)

theorem set (h : s.Filled g admits) {t : Table} {time : Instant} {kind ns name : String}
    {last : t.Last} {row : t.Row} {s' : Store}
    (htime : 0 ≤ time.seconds ∧ time.seconds < 253402300800) (htells : t.Tells time last)
    (hkind : admits kind) (hset : s.set (Key.within g t time kind ns name last) row = .ok s') :
    s'.Filled g admits := by
  obtain ⟨⟨k, hk⟩, -⟩ := set_eq_ok.mp hset
  intro key text htext
  rw [get?_set hset] at htext
  split at htext
  · next hkey =>
    cases htext
    exact ⟨t, time, kind, ns, name, last, row, htime, htells, hkind, hkey,
      ⟨k, parseKey_eq_ok.mpr (hkey ▸ hk)⟩, rfl⟩
  · exact h key text htext

/-- Every key text of a filled store spells a key in a partition on the grid. -/
theorem exists_gridded (h : s.Filled g admits) {key row : String} (hrow : s.get? key = some row) :
    ∃ (t : Table) (k : Key t) (second : Int), Key.Gridded g t key k second := by
  obtain ⟨t, time, kind, ns, name, last, -, htime, htells, -, rfl, ⟨k, hk⟩, -⟩ := h key row hrow
  have hk := parseKey_eq_ok.mp hk
  have hfloor := g.floor_le time.seconds
  have hrange := g.inRange_floor (s := time.seconds) ⟨htime.1, by unfold idLimit; omega⟩
  have hpos := g.seconds_pos
  have hle := g.seconds_le
  refine ⟨t, k, g.floor time.seconds, ?_, Key.partition_of_parse_within hk, hrange,
    g.dvd_floor time.seconds, ?_⟩
  · by_cases ht : t = .watch
    · subst ht
      obtain rfl : last = some time := htells
      exact Key.spells_observation hk
    · exact .of_uid ht hk
  · have hfirst := hrange.1
    exact ⟨by omega, by unfold idLimit; omega⟩

theorem gridded (h : s.Filled g admits) {key row : String} (hrow : s.get? key = some row)
    {t : Table} {k : Key t} (hk : Key.parse t key = .ok k) :
    ∃ second, Key.Gridded g t key k second := by
  obtain ⟨u, k', second, hgridded⟩ := h.exists_gridded hrow
  obtain rfl := Key.table_eq_of_parse hgridded.spells.parse hk
  obtain rfl : k' = k := Except.ok.inj (hgridded.spells.parse.symm.trans hk)
  exact ⟨second, hgridded⟩

theorem plain_kind (h : s.Filled g fun kind => Text.Plain kind.toList) {key row : String}
    (hrow : s.get? key = some row) {t : Table} {k : Key t} (hk : Key.parse t key = .ok k) :
    Text.Plain k.kind.toList := by
  obtain ⟨u, time, kind, ns, name, last, -, -, -, hkind, rfl, ⟨k', hk'⟩, -⟩ := h key row hrow
  have hk' := parseKey_eq_ok.mp hk'
  obtain rfl := Key.table_eq_of_parse hk' hk
  exact Key.plain_kind_of_parse_within hkind hk

theorem keyed (h : s.Filled g admits) : s.Keyed := by
  intro key row hrow
  obtain ⟨t, k, second, hk⟩ := h.exists_gridded hrow
  exact ⟨t, second, k, hk.spells.parse, hk.partition⟩

theorem grid (h : s.Filled g admits) {t : Table} {p : String} (hp : s.Holds t p) :
    ∃ second, p = idAt second ∧ InRange second ∧ g.seconds ∣ second ∧
      InRange (second + g.seconds) := by
  obtain ⟨key, row, hrow, k, hk, rfl⟩ := hp
  obtain ⟨second, hgridded⟩ := h.gridded hrow hk
  exact ⟨second, hgridded.partition, hgridded.inRange, hgridded.dvd, hgridded.next⟩

/-- Of the rows of a filled store, one at most has a given key. -/
theorem eq_of_parse (h : s.Filled g admits) {t : Table} {k : Key t} {key key' row row' : String}
    (hrow : s.get? key = some row) (hrow' : s.get? key' = some row')
    (hk : Key.parse t key = .ok k) (hk' : Key.parse t key' = .ok k) : key = key' := by
  obtain ⟨_, hgridded⟩ := h.gridded hrow hk
  obtain ⟨_, hgridded'⟩ := h.gridded hrow' hk'
  exact hgridded.spells.injective hgridded'.spells

end Filled

end Store

end WatchHistory
