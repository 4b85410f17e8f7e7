import WatchHistory.Proofs.Store.Filled
import WatchHistory.Proofs.Store.Previous

/-!
# The last key before another

The search for the key before another one is first bounded by that key within its partition, and
then goes through older partitions without a bound. It finds what a search for the greatest text
over all rows would find (`Store.LastKey`):

* `Store.lastMatch?_eq_some_iff`, `Store.lastMatch?_eq_none_iff`: the search of one partition.
* `Store.previousKey_cases`: both phases together.
* `Store.previousKey_spec`: what is found before a complete key, and what is found for all that
  continue a stem. A complete key is never found before itself, but a stem is found if a row is
  stored under its text with empty segments behind it (`Store.previousKey_eq_self`).
-/

set_option autoImplicit false

namespace WatchHistory

open WatchHistory.Partition

theorem exists_greatest_of_findSome? {α β : Type} (text : α → String) {as : List α}
    (hsorted : as.Pairwise fun a b => text a < text b) {f : α → Option β} {b : β}
    (h : as.reverse.findSome? f = some b) :
    ∃ a ∈ as, f a = some b ∧ ∀ x ∈ as, text a < text x → f x = none := by
  obtain ⟨after, a, before, hsplit, ha, hafter⟩ := List.findSome?_eq_some_iff.mp h
  have has : as = before.reverse ++ a :: after.reverse := by
    rw [← List.reverse_reverse as, hsplit]
    simp
  refine ⟨a, by rw [has]; simp, ha, fun x hx hlt => ?_⟩
  rw [has] at hx hsorted
  rcases List.mem_append.mp hx with hx | hx
  · exact absurd hlt
      (String.lt_asymm ((List.pairwise_append.mp hsorted).2.2 x hx a List.mem_cons_self))
  · rcases List.mem_cons.mp hx with rfl | hx
    · exact absurd hlt (String.lt_irrefl _)
    · exact hafter x (List.mem_reverse.mp hx)

namespace Store

/-- Whether a row of the store is stored under a text with a property, which may tell of the key
that is read of the text as well. -/
def HasKey (s : Store) (t : Table) (P : String → Key t → Prop) : Prop :=
  ∃ text row k, s.get? text = some row ∧ Key.parse t text = .ok k ∧ P text k

/-- Whether a key is the one that is read of the greatest text with a property under which a row is
stored. -/
def LastKey (s : Store) {t : Table} (P : String → Key t → Prop) (found : Key t) : Prop :=
  ∃ text row, s.get? text = some row ∧ Key.parse t text = .ok found ∧ P text found ∧
    ∀ text' row' k', s.get? text' = some row' → Key.parse t text' = .ok k' → P text' k' →
      ¬ text < text'

variable {g : Granularity} {admits : String → Prop} {s : Store} {t : Table} {c k found : Key t}
  {P Q : String → Key t → Prop}

theorem LastKey.hasKey (h : s.LastKey P found) : s.HasKey t P := by
  obtain ⟨text, row, hrow, hk, hP, -⟩ := h
  exact ⟨text, row, found, hrow, hk, hP⟩

theorem LastKey.unique {found' : Key t} (h : s.LastKey P found) (h' : s.LastKey P found') :
    found = found' := by
  obtain ⟨text, row, hrow, hk, hP, hgreatest⟩ := h
  obtain ⟨text', row', hrow', hk', hP', hgreatest'⟩ := h'
  obtain rfl := StrictOrder.connex (hgreatest text' row' found' hrow' hk' hP')
    (hgreatest' text row found hrow hk hP)
  exact Except.ok.inj (hk.symm.trans hk')

theorem lastKey_congr (h : ∀ text row k, s.get? text = some row → Key.parse t text = .ok k →
    (P text k ↔ Q text k)) : s.LastKey P found ↔ s.LastKey Q found := by
  unfold LastKey
  refine exists_congr fun text => exists_congr fun row => and_congr_right fun hrow =>
    and_congr_right fun hk => and_congr (h text row found hrow hk) ?_
  refine forall_congr' fun text' => forall_congr' fun row' => forall_congr' fun k' =>
    forall_congr' fun hrow' => forall_congr' fun hk' => ?_
  rw [h text' row' k' hrow' hk']

theorem hasKey_congr (h : ∀ text row k, s.get? text = some row → Key.parse t text = .ok k →
    (P text k ↔ Q text k)) : s.HasKey t P ↔ s.HasKey t Q := by
  unfold HasKey
  exact exists_congr fun text => exists_congr fun row => exists_congr fun k =>
    and_congr_right fun hrow => and_congr_right fun hk => h text row k hrow hk

/-! ## One partition -/

theorem lt_earliest_iff {x a b : String} : x < earliest a b ↔ x < a ∧ x < b := by
  unfold earliest
  split
  · next hba => exact ⟨fun h => ⟨String.lt_trans h hba, h⟩, fun h => h.2⟩
  · next hba =>
    refine ⟨fun h => ⟨h, ?_⟩, fun h => h.1⟩
    exact Decidable.byContradiction fun hxb =>
      hba (String.not_le.mp fun hab => hxb (String.not_le.mp fun hbx =>
        String.not_le.mpr h (String.le_trans hab hbx)))

theorem found_iff (hs : s.Filled g admits) (hc : c.Comparable) {second : Int}
    {upper : Option String} {r : String × String} {k : Key t} :
    (r ∈ s.between (c.retarget (idAt second)).render (match upper with
        | some upper => earliest (stemEnd (c.retarget (idAt second)).render) upper
        | none => stemEnd (c.retarget (idAt second)).render) ∧
      (if Key.covers (c.retarget (idAt second)).render r.1 then (Key.parse t r.1).toOption
        else none) = some k) ↔
      s.get? r.1 = some r.2 ∧ Key.parse t r.1 = .ok k ∧ c.Agrees k ∧ k.partition = idAt second ∧
        ∀ u ∈ upper, r.1 < u := by
  have hslash := slash_notMem_idAt second
  have hne : (idAt second).toList ≠ [] := (ranked_idAt second).1
  rw [mem_between, and_assoc]
  refine and_congr_right fun hrow => ?_
  obtain ⟨u, k', _, hk'⟩ := hs.exists_gridded hrow
  have htext : ∃ (u : Table) (k : Key u), Key.Spells r.1 k := ⟨u, k', hk'.spells⟩
  have hbounds : r.1 < (match upper with
      | some upper => earliest (stemEnd (c.retarget (idAt second)).render) upper
      | none => stemEnd (c.retarget (idAt second)).render) ↔
      r.1 < stemEnd (c.retarget (idAt second)).render ∧ ∀ u ∈ upper, r.1 < u := by
    cases upper with
    | none => simp only [Option.not_mem_none, false_implies, implies_true, and_true]
    | some upper =>
      simp only [Option.mem_def, Option.some.injEq, forall_eq']
      exact lt_earliest_iff
  have hparse : (if Key.covers (c.retarget (idAt second)).render r.1 then
      (Key.parse t r.1).toOption else none) = some k ↔
      Key.covers (c.retarget (idAt second)).render r.1 = true ∧ Key.parse t r.1 = .ok k := by
    split
    · next hcovers =>
      cases Key.parse t r.1 <;> simp [Except.toOption, hcovers]
    · next hcovers => simp [hcovers]
  rw [hbounds, hparse]
  constructor
  · rintro ⟨⟨-, -, hupper⟩, hcovers, hk⟩
    obtain ⟨k₀, hk₀, hp, hagrees⟩ := (Key.covers_retarget_iff htext hc hne hslash).mp hcovers
    obtain rfl := Except.ok.inj (hk₀.parse.symm.trans hk)
    exact ⟨hk, hagrees, hp, hupper⟩
  · rintro ⟨hk, hagrees, hp, hupper⟩
    obtain ⟨_, hgridded⟩ := hs.gridded hrow hk
    have hcovers : Key.covers (c.retarget (idAt second)).render r.1 = true :=
      (Key.covers_retarget_iff htext hc hne hslash).mpr ⟨k, hgridded.spells, hp, hagrees⟩
    obtain ⟨hafter, hbefore⟩ := Key.mem_range_of_covers_retarget hc hslash hcovers
    exact ⟨⟨hafter, hbefore, hupper⟩, hcovers, hk⟩

/-- `lastMatch?` finds the last key of a partition that has the fields of the comparator. -/
theorem lastMatch?_eq_some_iff (hs : s.Filled g admits) (hc : c.Comparable) {second : Int}
    {upper : Option String} :
    s.lastMatch? (idAt second) c upper = some found ↔
      s.LastKey (fun text k => c.Agrees k ∧ k.partition = idAt second ∧ ∀ u ∈ upper, text < u)
        found := by
  constructor
  · intro h
    obtain ⟨⟨text, row⟩, hmem, hfound, hgreatest⟩ :=
      exists_greatest_of_findSome? Prod.fst (s.pairwise_between _ _) h
    obtain ⟨hrow, hk, hP⟩ := (found_iff hs hc).mp ⟨hmem, hfound⟩
    refine ⟨text, row, hrow, hk, hP, fun text' row' k' hrow' hk' hP' hlt => ?_⟩
    obtain ⟨hmem', hfound'⟩ := (found_iff (r := (text', row')) hs hc).mpr ⟨hrow', hk', hP'⟩
    have hnone := hgreatest (text', row') hmem' hlt
    rw [hfound'] at hnone
    cases hnone
  · rintro ⟨text, row, hrow, hk, hP, hgreatest⟩
    obtain ⟨hmem, hfound⟩ := (found_iff (r := (text, row)) hs hc).mpr ⟨hrow, hk, hP⟩
    refine findSome?_reverse_of_greatest Prod.fst (s.pairwise_between _ _) hmem hfound
      fun r hr hlt => ?_
    apply Option.eq_none_iff_forall_ne_some.mpr
    intro k' hk'
    obtain ⟨hrow', hparse', hP'⟩ := (found_iff hs hc).mp ⟨hr, hk'⟩
    exact hgreatest r.1 r.2 k' hrow' hparse' hP' hlt

theorem lastMatch?_eq_none_iff (hs : s.Filled g admits) (hc : c.Comparable) {second : Int}
    {upper : Option String} :
    s.lastMatch? (idAt second) c upper = none ↔
      ¬ s.HasKey t fun text k =>
        c.Agrees k ∧ k.partition = idAt second ∧ ∀ u ∈ upper, text < u := by
  refine List.findSome?_eq_none_iff.trans ⟨?_, fun h r hr => ?_⟩
  · rintro hnone ⟨text, row, k, hrow, hk, hP⟩
    obtain ⟨hmem, hfound⟩ := (found_iff (r := (text, row)) hs hc).mpr ⟨hrow, hk, hP⟩
    have := hnone (text, row) (List.mem_reverse.mpr hmem)
    rw [hfound] at this
    cases this
  · apply Option.eq_none_iff_forall_ne_some.mpr
    intro k hk
    obtain ⟨hrow, hparse, hP⟩ := (found_iff hs hc).mp ⟨List.mem_reverse.mp hr, hk⟩
    exact h ⟨r.1, r.2, k, hrow, hparse, hP⟩

/-! ## Both phases -/

/-- Where the search of a key's own partition stops: at the key, or behind all that continue it. -/
def bound (k : Key t) : String :=
  match Key.parse t k.render with
  | .ok _ => k.render
  | .error _ => stemEnd k.render

/-- Whether a key is one that the search of `previousKey` goes through. -/
def Searched (k c : Key t) (text : String) (k' : Key t) : Prop :=
  c.Agrees k' ∧ (k'.partition = k.partition ∧ text < bound k ∨ k'.partition < k.partition)

theorem previousKey_eq_search {ids : List String} (hids : s.tablePartitions g t = .ok ids) :
    s.previousKey g k c =
      match s.lastMatch? k.partition c (some (bound k)) with
      | some found => .ok found
      | none =>
        match (ids.filter fun p => p < k.partition).reverse.findSome?
            fun p => s.lastMatch? p c none with
        | some found => .ok found
        | none => .error (.noEarlier k.render c.render) := by
  unfold previousKey
  rw [hids, ← List.filter_reverse]
  dsimp only [bind, Except.bind]
  show (match s.lastMatch? k.partition c (some (bound k)) with | some _ => _ | none => _) = _
  cases s.lastMatch? k.partition c (some (bound k)) with
  | some found => rfl
  | none =>
    dsimp only
    cases (ids.reverse.filter fun p => decide (p < k.partition)).findSome?
        fun p => s.lastMatch? p c none <;> rfl

theorem Filled.not_lt_of_partition_lt (hs : s.Filled g admits) {text text' row row' : String}
    {k k' : Key t} (hrow : s.get? text = some row) (hk : Key.parse t text = .ok k)
    (hrow' : s.get? text' = some row') (hk' : Key.parse t text' = .ok k')
    (hlt : k'.partition < k.partition) : ¬ text < text' := by
  obtain ⟨a, hgridded⟩ := hs.gridded hrow hk
  obtain ⟨b, hgridded'⟩ := hs.gridded hrow' hk'
  intro htext
  refine Filed.not_lt_of_not_lt ⟨k, hk, hgridded.partition⟩ ⟨k', hk', hgridded'.partition⟩
    (String.lt_asymm htext) ?_
  rwa [← hgridded.partition, ← hgridded'.partition]

/-- **Both phases of the search** find the last key that it goes through, or there is none. -/
theorem previousKey_cases (hs : s.Filled g admits) (hc : c.Comparable) {second : Int}
    (hp : k.partition = idAt second) :
    (∃ found, s.previousKey g k c = .ok found ∧ s.LastKey (Searched k c) found) ∨
      (s.previousKey g k c = .error (.noEarlier k.render c.render) ∧
        ¬ s.HasKey t (Searched k c)) := by
  obtain ⟨ids, hids, hsorted, hid, hcomplete⟩ :=
    tablePartitions_spec (t := t) hs.keyed fun p hp => hs.grid hp
  rw [previousKey_eq_search hids, hp]
  cases hown : s.lastMatch? (idAt second) c (some (bound k)) with
  | some found =>
    refine .inl ⟨found, rfl, ?_⟩
    obtain ⟨text, row, hrow, hk, ⟨hagrees, hpartition, hupper⟩, hgreatest⟩ :=
      (lastMatch?_eq_some_iff hs hc).mp hown
    refine ⟨text, row, hrow, hk, ⟨hagrees, .inl ⟨hpartition.trans hp.symm, hupper _ rfl⟩⟩,
      fun text' row' k' hrow' hk' ⟨hagrees', hwhere⟩ => ?_⟩
    rcases hwhere with ⟨hsame, hbefore⟩ | holder
    · exact hgreatest text' row' k' hrow' hk'
        ⟨hagrees', hsame.trans hp, fun u hu => Option.some.inj hu ▸ hbefore⟩
    · exact hs.not_lt_of_partition_lt hrow hk hrow' hk' (hpartition ▸ hp ▸ holder)
  | none =>
    have hnotOwn := (lastMatch?_eq_none_iff hs hc).mp hown
    have hold : ∀ {text row k'}, s.get? text = some row → Key.parse t text = .ok k' →
        Searched k c text k' → c.Agrees k' ∧ k'.partition < idAt second := by
      rintro text row k' hrow hk ⟨hagrees, ⟨hsame, hbefore⟩ | holder⟩
      · exact absurd ⟨text, row, k', hrow, hk, hagrees, hsame.trans hp,
          fun u hu => Option.some.inj hu ▸ hbefore⟩ hnotOwn
      · exact ⟨hagrees, hp ▸ holder⟩
    have hlisted : ∀ {text row k'}, s.get? text = some row → Key.parse t text = .ok k' →
        k'.partition < idAt second →
          k'.partition ∈ ids.filter fun p => decide (p < idAt second) :=
      fun hrow hk holder => List.mem_filter.mpr
        ⟨hcomplete _ ⟨_, _, hrow, _, hk, rfl⟩, decide_eq_true holder⟩
    dsimp only
    cases hsearch : (ids.filter fun p => decide (p < idAt second)).reverse.findSome?
        fun p => s.lastMatch? p c none with
    | some found =>
      refine .inl ⟨found, rfl, ?_⟩
      obtain ⟨p, hmem, hfound, hnewest⟩ :=
        exists_greatest_of_findSome? id (hsorted.filter _) hsearch
      obtain ⟨hmem, holder⟩ := List.mem_filter.mp hmem
      obtain ⟨a, rfl⟩ := hid p hmem
      obtain ⟨text, row, hrow, hk, ⟨hagrees, hpartition, -⟩, hgreatest⟩ :=
        (lastMatch?_eq_some_iff hs hc).mp hfound
      refine ⟨text, row, hrow, hk,
        ⟨hagrees, .inr (hpartition ▸ hp ▸ of_decide_eq_true holder)⟩,
        fun text' row' k' hrow' hk' hsearched => ?_⟩
      obtain ⟨hagrees', holder'⟩ := hold hrow' hk' hsearched
      by_cases hlt : k'.partition < idAt a
      · exact hs.not_lt_of_partition_lt hrow hk hrow' hk' (hpartition ▸ hlt)
      · by_cases hgt : idAt a < k'.partition
        · have hnone := hnewest _ (hlisted hrow' hk' holder') hgt
          obtain ⟨b, hgridded⟩ := hs.gridded hrow' hk'
          rw [hgridded.partition] at hnone
          exact absurd ⟨text', row', k', hrow', hk', hagrees', hgridded.partition, nofun⟩
            ((lastMatch?_eq_none_iff hs hc).mp hnone)
        · exact hgreatest text' row' k' hrow' hk'
            ⟨hagrees', StrictOrder.connex hlt hgt, nofun⟩
    | none =>
      refine .inr ⟨rfl, ?_⟩
      rintro ⟨text, row, k', hrow, hk, hsearched⟩
      obtain ⟨hagrees, holder⟩ := hold hrow hk hsearched
      have hnone := List.findSome?_eq_none_iff.mp hsearch _
        (List.mem_reverse.mpr (hlisted hrow hk holder))
      obtain ⟨b, hgridded⟩ := hs.gridded hrow hk
      rw [hgridded.partition] at hnone
      exact (lastMatch?_eq_none_iff hs hc).mp hnone
        ⟨text, row, k', hrow, hk, hagrees, hgridded.partition, nofun⟩

/-! ## What is searched -/

theorem searched_iff_lt (hs : s.Filled g admits) {second : Int} (hp : k.partition = idAt second)
    {k₀ : Key t} (hk₀ : Key.parse t k.render = .ok k₀) {text row : String} {k' : Key t}
    (hrow : s.get? text = some row) (hk' : Key.parse t text = .ok k') :
    Searched k c text k' ↔ text < k.render ∧ c.Agrees k' := by
  have hbound : bound k = k.render := by rw [bound, hk₀]
  have hfiled : Filed t (idAt second) k.render := by
    refine ⟨k₀, hk₀, ?_⟩
    rw [← hp]
    exact Key.partition_of_parse_render (hp ▸ slash_notMem_idAt second)
      (hp ▸ (ranked_idAt second).1) hk₀
  obtain ⟨a, hgridded⟩ := hs.gridded hrow hk'
  have hfiled' : Filed t (idAt a) text := ⟨k', hk', hgridded.partition⟩
  unfold Searched
  rw [hbound, and_comm, hp, hgridded.partition]
  refine and_congr_left fun _ => ⟨?_, fun hlt => ?_⟩
  · rintro (⟨-, hlt⟩ | holder)
    · exact hlt
    · exact Decidable.byContradiction fun hnot => hfiled.not_lt_of_not_lt hfiled' hnot holder
  · have hnot := hfiled'.not_lt_of_not_lt hfiled (String.lt_asymm hlt)
    by_cases holder : idAt a < idAt second
    · exact .inr holder
    · exact .inl ⟨StrictOrder.connex holder hnot, hlt⟩

/-- For a stem that agrees with the comparator in all but the partition, the search goes through all
texts of its partition and of older ones; for a complete key (`searched_iff_lt`), through all lesser
texts. -/
theorem searched_iff_not_lt (hs : s.Filled g admits) (hc : c.Comparable) {second : Int}
    (hp : k.partition = idAt second) {fault : KeyFault}
    (hfault : Key.parse t k.render = .error fault) (hsame : c.retarget k.partition = k)
    {text row : String} {k' : Key t} (hrow : s.get? text = some row)
    (hk' : Key.parse t text = .ok k') :
    Searched k c text k' ↔ ¬ k.partition < k'.partition ∧ c.Agrees k' := by
  have hbound : bound k = stemEnd k.render := by rw [bound, hfault]
  unfold Searched
  rw [hbound, and_comm]
  refine and_congr_left fun hagrees => ⟨?_, fun hnot => ?_⟩
  · rintro (⟨heq, -⟩ | holder)
    · exact heq ▸ String.lt_irrefl _
    · exact String.lt_asymm holder
  · by_cases holder : k'.partition < k.partition
    · exact .inr holder
    · obtain ⟨a, hgridded⟩ := hs.gridded hrow hk'
      have heq := StrictOrder.connex holder hnot
      have hslash : '/' ∉ k.partition.toList := hp ▸ slash_notMem_idAt second
      have hne : k.partition.toList ≠ [] := hp ▸ (ranked_idAt second).1
      have htext : ∃ (u : Table) (k : Key u), Key.Spells text k := ⟨t, k', hgridded.spells⟩
      have hcovers := (Key.covers_retarget_iff htext hc hne hslash).mpr
        ⟨k', hgridded.spells, heq, hagrees⟩
      have hrange := Key.mem_range_of_covers_retarget hc hslash hcovers
      rw [hsame] at hrange
      exact .inl ⟨heq, hrange.2⟩

theorem eq_render_of_spells {text : String} {k₀ : Key t} (h : Key.Spells text k)
    (hk₀ : Key.parse t k.render = .ok k₀) : text = k.render := by
  have hslash := fun s hs => h.slash_notMem s (List.mem_cons_of_mem _ hs)
  refine String.toList_injective ?_
  rw [h.toList_eq, Key.toList_render, Key.dropEmptyEnd_fields_of_parse_render hslash hk₀]

theorem previousKey_iff (hs : s.Filled g admits) (hc : c.Comparable) {second : Int}
    (hp : k.partition = idAt second)
    (hP : ∀ text row k', s.get? text = some row → Key.parse t text = .ok k' →
      (Searched k c text k' ↔ P text k')) :
    (∀ found, s.previousKey g k c = .ok found ↔ s.LastKey P found) ∧
      (s.previousKey g k c = .error (.noEarlier k.render c.render) ↔ ¬ s.HasKey t P) := by
  rw [← hasKey_congr hP]
  simp only [← lastKey_congr hP]
  rcases previousKey_cases hs hc hp with ⟨found, hfound, hlast⟩ | ⟨herror, hnone⟩
  · refine ⟨fun found' => ?_, ?_⟩
    · rw [hfound, Except.ok.injEq]
      exact ⟨fun h => h ▸ hlast, fun h => hlast.unique h⟩
    · rw [hfound]
      exact ⟨nofun, fun h => absurd hlast.hasKey h⟩
  · refine ⟨fun found' => ?_, ?_⟩
    · rw [herror]
      exact ⟨nofun, fun h => absurd h.hasKey hnone⟩
    · exact iff_of_true herror hnone

/-- **The last key before another.** Before a complete key the greatest lesser text with the fields
of the comparator is found, which is never that of the key itself. For a stem with the fields of the
comparator the greatest text with these fields in its partition or an older one is found, which is
that of the stem only if a row is stored under a text that spells it. Nothing is found exactly if
there is no such text. -/
theorem previousKey_spec (hs : s.Filled g fun _ => True) (hc : c.Comparable)
    (hp : k.partition.toList.length = 12 ∧ ∀ x ∈ k.partition.toList, x.isDigit = true) :
    ((∃ k₀, Key.parse t k.render = .ok k₀) →
      (∀ found, s.previousKey g k c = .ok found ↔
        s.LastKey (fun text k' => text < k.render ∧ c.Agrees k') found) ∧
      (s.previousKey g k c = .error (.noEarlier k.render c.render) ↔
        ¬ s.HasKey t fun text k' => text < k.render ∧ c.Agrees k') ∧
      s.previousKey g k c ≠ .ok k) ∧
    ((∃ fault, Key.parse t k.render = .error fault) → c.retarget k.partition = k →
      (∀ found, s.previousKey g k c = .ok found ↔
        s.LastKey (fun _ k' => ¬ k.partition < k'.partition ∧ c.Agrees k') found) ∧
      (s.previousKey g k c = .error (.noEarlier k.render c.render) ↔
        ¬ s.HasKey t fun _ k' => ¬ k.partition < k'.partition ∧ c.Agrees k') ∧
      (s.previousKey g k c = .ok k → ∃ text row, s.get? text = some row ∧ Key.Spells text k)) := by
  have hid := (eq_idAt_of_digits hp).1
  have hspells : ∀ {P : String → Key t → Prop}, s.LastKey P k →
      ∃ text row, s.get? text = some row ∧ Key.Spells text k ∧ P text k := by
    rintro P ⟨text, row, hrow, hk, hP, -⟩
    obtain ⟨_, hgridded⟩ := hs.gridded hrow hk
    exact ⟨text, row, hrow, hgridded.spells, hP⟩
  constructor
  · rintro ⟨k₀, hk₀⟩
    obtain ⟨hfound, hnone⟩ := previousKey_iff hs hc hid fun text row k' hrow hk' =>
      searched_iff_lt hs hid hk₀ hrow hk'
    refine ⟨hfound, hnone, fun hself => ?_⟩
    obtain ⟨text, row, -, hk, hlt, -⟩ := hspells ((hfound k).mp hself)
    exact String.lt_irrefl _ (eq_render_of_spells hk hk₀ ▸ hlt)
  · rintro ⟨fault, hfault⟩ hsame
    obtain ⟨hfound, hnone⟩ := previousKey_iff hs hc hid fun text row k' hrow hk' =>
      searched_iff_not_lt hs hc hid hfault hsame hrow hk'
    refine ⟨hfound, hnone, fun hself => ?_⟩
    obtain ⟨text, row, hrow, hk, -⟩ := hspells ((hfound k).mp hself)
    exact ⟨text, row, hrow, hk⟩

/-- The key of a pod in the hour of an instant. -/
def webAt (time : Instant) : Key .activity :=
  .within .hour .activity time "Pod" "default" "web" "u1"

/-- The fields of the keys `webAt`, in no hour. -/
def web : Key .activity := .comparator .activity "Pod" "default" "web" "u1"

/-- The pod of `webAt`, observed in the first hour and in the second. -/
def twoHours : Except StoreError Store := do
  let s ← Store.empty.set (webAt .epoch) ⟨[], [0]⟩
  s.set (webAt (startAt 3600)) ⟨[], [3600]⟩

theorem previousKey_walks_back :
    ∃ s, twoHours = .ok s ∧ (s.Filled .hour fun _ => True) ∧ web.Comparable ∧
      s.LastKey (fun text k => text < (webAt (startAt 3600)).render ∧ web.Agrees k)
        (webAt .epoch) := by
  obtain ⟨s₁, h₁⟩ : ∃ s₁, Store.empty.set (webAt .epoch) ⟨[], [0]⟩ = .ok s₁ := ⟨_, rfl⟩
  obtain ⟨s, hs⟩ : ∃ s, s₁.set (webAt (startAt 3600)) ⟨[], [3600]⟩ = .ok s := ⟨_, rfl⟩
  have htwo : twoHours = .ok s := by rw [← hs, twoHours, h₁]; rfl
  have hfilled : s.Filled .hour fun _ => True :=
    ((filled_empty .hour _).set (by decide) (by trivial) trivial h₁).set (by decide) (by trivial)
      trivial hs
  have hcomparable : web.Comparable := ⟨by decide, by decide, by decide, by decide, trivial⟩
  have hrun : (do (← twoHours).previousKey .hour (webAt (startAt 3600)) web) =
      .ok (webAt .epoch) := eq_ok_of_toOption (by decide +kernel)
  rw [htwo] at hrun
  have hid : (webAt (startAt 3600)).partition = idAt 3600 := by decide +kernel
  have hdigits := (start_eq_ok_iff.mp (start_idAt (s := 3600) (by decide))).1
  have hread : Key.parse .activity (webAt (startAt 3600)).render = .ok (webAt (startAt 3600)) :=
    Key.parse_render (by decide) (by decide) rfl
  obtain ⟨hfound, -⟩ :=
    (previousKey_spec hfilled hcomparable (hid ▸ hdigits)).1 ⟨_, hread⟩
  exact ⟨s, htwo, hfilled, hcomparable, (hfound _).mp hrun⟩

/-- The stem of the pods with the name `x` in the first hour. -/
def stemOfX : Key .summary := .within .hour .summary .epoch "Pod" "ns" "x" ""

/-- The stem of the pods with the name `x` in no hour. -/
def anyX : Key .summary := .comparator .summary "Pod" "ns" "x" ""

/-- A pod whose name ends with a slash and that has no uid. -/
def slashedName : Except StoreError Store :=
  Store.empty.set (Key.within .hour .summary .epoch "Pod" "ns" "x/" "") Summary.initial

/-- The row of a name that ends with a slash is found for the stem of the name without it, as that
stem itself. -/
theorem previousKey_eq_self :
    ∃ s, slashedName = .ok s ∧ (s.Filled .hour fun _ => True) ∧ anyX.Comparable ∧
      (∃ fault, Key.parse .summary stemOfX.render = .error fault) ∧
      anyX.retarget stemOfX.partition = stemOfX ∧
      s.previousKey .hour stemOfX anyX = .ok stemOfX := by
  obtain ⟨s, hs⟩ : ∃ s, slashedName = .ok s := ⟨_, rfl⟩
  have hfilled : s.Filled .hour fun _ => True :=
    (filled_empty .hour _).set (by decide) (by trivial) trivial hs
  have hrun : (do (← slashedName).previousKey .hour stemOfX anyX) = .ok stemOfX :=
    eq_ok_of_toOption (by decide +kernel)
  rw [hs] at hrun
  exact ⟨s, hs, hfilled, ⟨by decide, by decide, by decide, by decide, trivial⟩, ⟨_, rfl⟩,
    by decide, hrun⟩

end Store

end WatchHistory
