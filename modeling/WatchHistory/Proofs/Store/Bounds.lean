import WatchHistory.Proofs.Key.Codec
import WatchHistory.Store.Bounds

/-!
# The bounds of a store

In a store whose keys are complete and lie in partitions with an id (`Keyed`), the first and the
last key of a table are in its oldest and newest partition, because the partition is the first part
of a key in which keys of one table differ.

* `Spans`: what the bounds of a set of partitions are; `Spans.unique`.
* `tableBounds_spec`, `bounds_spec`: bounds are always found, and they are those of the partitions
  that hold a row.
-/

set_option autoImplicit false

namespace WatchHistory

open WatchHistory.Partition

/-! ## Texts filed under a table and a partition -/

/-- Whether a text is a key of the table in the partition. -/
def Filed (t : Table) (p text : String) : Prop := ∃ k, Key.parse t text = .ok k ∧ k.partition = p

namespace Filed

variable {t u : Table} {p q text : String}

theorem unique (h : Filed t p text) (h' : Filed u q text) : t = u ∧ p = q := by
  obtain ⟨k, hk, rfl⟩ := h
  obtain ⟨k', hk', rfl⟩ := h'
  cases Key.table_eq_of_parse hk hk'
  rw [hk] at hk'
  exact ⟨rfl, by cases hk'; rfl⟩

theorem slash_notMem (h : Filed t p text) : '/' ∉ p.toList := by
  obtain ⟨k, hk, rfl⟩ := h
  obtain ⟨last, -, -, hp, -⟩ := Key.exists_slashed_of_parse hk
  exact hp

theorem exists_append (h : Filed t p text) :
    ∃ rest, text.toList = t.stem.toList ++ (p.toList ++ '/' :: rest) := by
  obtain ⟨k, hk, rfl⟩ := h
  obtain ⟨rest, hrest⟩ := Key.exists_append_of_parse hk
  exact ⟨_, by simpa [Table.partitionStem, Table.stem] using hrest⟩

theorem table_eq (h : Filed t p text) {rest : List Char}
    (htext : text.toList = u.stem.toList ++ rest) : t = u := by
  obtain ⟨rest', hrest⟩ := h.exists_append
  exact Key.table_eq_of_stem_append (hrest.symm.trans htext)

theorem mem_range_stem_iff {second : Int} (h : Filed t (idAt second) text) :
    (¬ text < u.stem ∧ text < Store.stemEnd u.stem) ↔ t = u := by
  rw [Text.mem_range_iff]
  constructor
  · rintro ⟨rest, hrest, -⟩
    exact h.table_eq hrest
  · rintro rfl
    obtain ⟨rest, hrest⟩ := h.exists_append
    exact ⟨_, hrest, Text.plain_append (plain_idAt second) (Text.plain_slash rest)⟩

/-- A text that starts with the stem of a partition is filed under that partition. -/
theorem eq_of_append (h : Filed t p text) (hq : '/' ∉ q.toList) {rest : List Char}
    (htext : text.toList = u.stem.toList ++ (q.toList ++ '/' :: rest)) : t = u ∧ p = q := by
  obtain rfl := h.table_eq htext
  refine ⟨rfl, String.toList_injective ?_⟩
  obtain ⟨rest', hrest'⟩ := h.exists_append
  have hboth := congrArg (Text.split '/') (List.append_cancel_left (hrest'.symm.trans htext))
  rw [Text.split_append h.slash_notMem, Text.split_append hq] at hboth
  exact (List.cons.inj hboth).1

theorem eq_of_mem_range_partitionStem (h : Filed t p text) (hq : '/' ∉ q.toList)
    (hrange : ¬ text < u.partitionStem q ∧ text < Store.stemEnd (u.partitionStem q)) :
    t = u ∧ p = q := by
  obtain ⟨rest, hrest, -⟩ := Text.mem_range_iff.mp hrange
  exact h.eq_of_append hq (by simpa [Table.partitionStem, Table.stem] using hrest)

/-- A text is in the range of a partition's stem exactly if it is filed under that partition and its
kind does not start with the greatest character. -/
theorem mem_range_partitionStem_iff_plain {k : Key t} (hk : Key.parse t text = .ok k)
    (hq : '/' ∉ q.toList) :
    (¬ text < u.partitionStem q ∧ text < Store.stemEnd (u.partitionStem q)) ↔
      (t = u ∧ k.partition = q) ∧ Text.Plain k.kind.toList := by
  obtain ⟨rest, hrest⟩ := Key.exists_append_of_parse hk
  constructor
  · intro hrange
    obtain ⟨rfl, rfl⟩ := eq_of_mem_range_partitionStem ⟨k, hk, rfl⟩ hq hrange
    obtain ⟨more, hmore, hplain⟩ := Text.mem_range_iff.mp hrange
    rw [hrest, List.append_cancel_left_eq] at hmore
    exact ⟨⟨rfl, rfl⟩, Text.plain_of_plain_append (hmore ▸ hplain)⟩
  · rintro ⟨⟨rfl, rfl⟩, hkind⟩
    exact Text.mem_range_iff.mpr ⟨_, hrest, Text.plain_append hkind (Text.plain_slash rest)⟩

theorem mem_range_partitionStem_iff {k : Key t} (hk : Key.parse t text = .ok k)
    (hkind : Text.Plain k.kind.toList) (hq : '/' ∉ q.toList) :
    (¬ text < u.partitionStem q ∧ text < Store.stemEnd (u.partitionStem q)) ↔
      t = u ∧ k.partition = q := by
  rw [mem_range_partitionStem_iff_plain hk hq, and_iff_left hkind]

/-- Keys of one table are ordered by their partitions first. -/
theorem not_lt_of_not_lt {a b : Int} {text' : String} (h : Filed t (idAt a) text)
    (h' : Filed t (idAt b) text') (hle : ¬ text' < text) : ¬ idAt b < idAt a := by
  obtain ⟨rest, hrest⟩ := h.exists_append
  obtain ⟨rest', hrest'⟩ := h'.exists_append
  intro hlt
  apply hle
  rw [String.lt_iff, hrest, hrest', Text.append_lt_append_left]
  exact Text.segment_lt_segment (ranked_idAt b) (ranked_idAt a) hlt

end Filed

/-! ## Bounds -/

/-- Whether two texts are the least and the greatest ones with a property, or no text has it. -/
def Spans (P : String → Prop) : Option (String × String) → Prop
  | none => ∀ p, ¬ P p
  | some (min, max) => P min ∧ P max ∧ ∀ p, P p → ¬ p < min ∧ ¬ max < p

namespace Spans

variable {P Q : String → Prop} {b c : Option (String × String)}

theorem congr (h : ∀ p, P p ↔ Q p) : Spans P b ↔ Spans Q b := by
  rw [show P = Q from funext fun p => propext (h p)]

theorem unique (hb : Spans P b) (hc : Spans P c) : b = c := by
  rcases b with _ | ⟨min, max⟩ <;> rcases c with _ | ⟨min', max'⟩
  · rfl
  · exact absurd hc.1 (hb min')
  · exact absurd hb.1 (hc min)
  · obtain ⟨hmin, hmax, hall⟩ := hb
    obtain ⟨hmin', hmax', hall'⟩ := hc
    rw [StrictOrder.connex (hall' _ hmin).1 (hall _ hmin').1,
      StrictOrder.connex (hall _ hmax').2 (hall' _ hmax).2]

theorem joinBounds (hb : Spans P b) (hc : Spans Q c) :
    Spans (fun p => P p ∨ Q p) (Store.joinBounds b c) := by
  rcases b with _ | ⟨min, max⟩ <;> rcases c with _ | ⟨min', max'⟩
  · exact fun p hp => hp.elim (hb p) (hc p)
  · exact (congr fun p => (or_iff_right (hb p)).symm).mp hc
  · exact (congr fun p => (or_iff_left (hc p)).symm).mp hb
  · obtain ⟨hmin, hmax, hall⟩ := hb
    obtain ⟨hmin', hmax', hall'⟩ := hc
    have hleast : ∀ x y z : String, ¬ z < x ∨ ¬ z < y → ¬ z < Store.earliest x y := by
      intro x y z h
      unfold Store.earliest
      split
      · next hyx => exact fun hz => h.elim (fun h => h (String.lt_trans hz hyx)) fun h => h hz
      · next hyx =>
        refine fun hz => h.elim (fun h => h hz) fun h => h (String.not_le.mp fun hyz => hyx ?_)
        exact String.not_le.mp fun hxy => String.not_le.mpr hz (String.le_trans hxy hyz)
    have hgreatest : ∀ x y z : String, ¬ x < z ∨ ¬ y < z → ¬ Store.latest x y < z := by
      intro x y z h
      unfold Store.latest
      split
      · next hxy => exact fun hz => h.elim (fun h => h (String.lt_trans hxy hz)) fun h => h hz
      · next hxy =>
        refine fun hz => h.elim (fun h => h hz) fun h => h (String.not_le.mp fun hzy => hxy ?_)
        exact String.not_le.mp fun hyx => String.not_le.mpr hz (String.le_trans hzy hyx)
    refine ⟨?_, ?_, fun p hp => ⟨hleast _ _ _ ?_, hgreatest _ _ _ ?_⟩⟩
    · unfold Store.earliest
      split
      · exact .inr hmin'
      · exact .inl hmin
    · unfold Store.latest
      split
      · exact .inr hmax'
      · exact .inl hmax
    · exact hp.imp (fun h => (hall p h).1) fun h => (hall' p h).1
    · exact hp.imp (fun h => (hall p h).2) fun h => (hall' p h).2

end Spans

namespace Store

/-- Whether a row of the table is in the partition. -/
def Holds (s : Store) (t : Table) (p : String) : Prop :=
  ∃ key row, s.get? key = some row ∧ Filed t p key

/-- Whether every key is complete and lies in a partition with an id. -/
def Keyed (s : Store) : Prop :=
  ∀ key row, s.get? key = some row → ∃ t second, Filed t (idAt second) key

variable {s : Store}

theorem mem_under_stem {t : Table} (h : s.Keyed) {key row : String} :
    (key, row) ∈ s.under t.stem ↔ s.get? key = some row ∧ ∃ second, Filed t (idAt second) key := by
  rw [mem_under]
  apply and_congr_right
  intro hrow
  obtain ⟨u, second, hfiled⟩ := h key row hrow
  rw [hfiled.mem_range_stem_iff]
  constructor
  · rintro rfl
    exact ⟨second, hfiled⟩
  · rintro ⟨second', hfiled'⟩
    exact (hfiled.unique hfiled').1

theorem exists_ends {rows : List (String × String)} (hsorted : rows.Pairwise fun a b => a.1 < b.1)
    (hne : rows ≠ []) :
    ∃ first ∈ rows, ∃ last ∈ rows, rows.head? = some first ∧ rows.getLast? = some last ∧
      ∀ row ∈ rows, ¬ row.1 < first.1 ∧ ¬ last.1 < row.1 := by
  refine ⟨rows.head hne, List.head_mem hne, rows.getLast hne, List.getLast_mem hne,
    List.head?_eq_some_head hne, List.getLast?_eq_some_getLast hne, fun row hrow => ⟨?_, ?_⟩⟩
  · obtain ⟨first, rest, rfl⟩ := List.exists_cons_of_ne_nil hne
    rcases List.mem_cons.mp hrow with rfl | hrow
    · exact String.lt_irrefl _
    · exact String.lt_asymm ((List.pairwise_cons.mp hsorted).1 row hrow)
  · rw [← List.dropLast_concat_getLast hne] at hsorted hrow
    rcases List.mem_append.mp hrow with hrow | hrow
    · exact String.lt_asymm
        ((List.pairwise_append.mp hsorted).2.2 row hrow _ (List.mem_singleton_self _))
    · rw [List.mem_singleton.mp hrow]
      exact String.lt_irrefl _

theorem tableBounds_spec (h : s.Keyed) (t : Table) :
    ∃ b, s.tableBounds t = .ok b ∧ Spans (s.Holds t) b := by
  have hheld : ∀ p, s.Holds t p → ∃ second key row,
      p = idAt second ∧ (key, row) ∈ s.under t.stem ∧ Filed t (idAt second) key := by
    rintro p ⟨key, row, hrow, hfiled⟩
    obtain ⟨u, second, hid⟩ := h key row hrow
    obtain ⟨rfl, rfl⟩ := hid.unique hfiled
    exact ⟨second, key, row, rfl, (mem_under_stem h).mpr ⟨hrow, second, hfiled⟩, hfiled⟩
  by_cases hne : s.under t.stem = []
  · refine ⟨none, ?_, fun p hp => ?_⟩
    · simp only [tableBounds, minKey?, maxKey?, firstKey?, lastKey?, hne]
      rfl
    · obtain ⟨second, key, row, -, hmem, -⟩ := hheld p hp
      rw [hne] at hmem
      cases hmem
  · obtain ⟨⟨key, row⟩, hfirst, ⟨key', row'⟩, hlast, hhead, hgetLast, hends⟩ :=
      exists_ends (s.pairwise_between _ _) hne
    obtain ⟨hrow, a, k, hk, hka⟩ := (mem_under_stem h).mp hfirst
    obtain ⟨hrow', b, k', hk', hkb⟩ := (mem_under_stem h).mp hlast
    refine ⟨some (idAt a, idAt b), ?_, ⟨_, _, hrow, k, hk, hka⟩, ⟨_, _, hrow', k', hk', hkb⟩, ?_⟩
    · unfold tableBounds minKey? maxKey? firstKey? lastKey? under
      rw [hhead, hgetLast]
      simp only [Option.map_some, parseKey, hk, hk', ← hka, ← hkb]
      rfl
    · intro p hp
      obtain ⟨second, x, row, rfl, hmem, hfiled⟩ := hheld p hp
      obtain ⟨hleast, hgreatest⟩ := hends _ hmem
      exact ⟨Filed.not_lt_of_not_lt ⟨k, hk, hka⟩ hfiled hleast,
        Filed.not_lt_of_not_lt hfiled ⟨k', hk', hkb⟩ hgreatest⟩

/-- **The oldest and the newest partition of a store** are always found. -/
theorem bounds_spec (h : s.Keyed) :
    ∃ b, s.bounds = .ok b ∧ Spans (fun p => ∃ t, s.Holds t p) b := by
  have hfold : ∀ (ts : List Table) (P : String → Prop) (c : Option (String × String)),
      Spans P c → ∃ b, ts.foldlM (fun found t => return joinBounds found (← s.tableBounds t)) c =
        (.ok b : Except StoreError _) ∧ Spans (fun p => P p ∨ ∃ t ∈ ts, s.Holds t p) b := by
    intro ts
    induction ts with
    | nil => exact fun P c hc => ⟨c, rfl, (Spans.congr fun p => by simp).mp hc⟩
    | cons t ts ih =>
      intro P c hc
      obtain ⟨b, hb, hspans⟩ := tableBounds_spec h t
      obtain ⟨b', hb', hspans'⟩ := ih _ _ (hc.joinBounds hspans)
      refine ⟨b', ?_, (Spans.congr fun p => by simp [or_assoc]).mp hspans'⟩
      rw [List.foldlM_cons, hb]
      exact hb'
  obtain ⟨b, hb, hspans⟩ := hfold Table.all (fun _ => False) none fun _ => not_false
  exact ⟨b, hb, (Spans.congr fun p => by simp [Table.mem_all]).mp hspans⟩

theorem spans_of_bounds (h : s.Keyed) {b : Option (String × String)} (hb : s.bounds = .ok b) :
    Spans (fun p => ∃ t, s.Holds t p) b := by
  obtain ⟨b', hb', hspans⟩ := bounds_spec h
  rw [Except.ok.inj (hb.symm.trans hb')]
  exact hspans

end Store

end WatchHistory
