import WatchHistory.Proofs.Fallible
import WatchHistory.Proofs.Partition.Between
import WatchHistory.Proofs.Store.Bounds
import WatchHistory.Store.Scan

/-!
# The observation before

The search for the last key before another one goes through the partition of that key and then
through older ones, from the newest to the oldest.

* `tablePartitions_spec`: the partitions to search are all found, if the ids of the table are on the
  grid and the one after each of them still has twelve digits.
* `previousKey_eq_of_greatest`: the search for an observation of an object finds the greatest key of
  one, in the newest partition that is not after the one that is asked for.
* `previousKey_eq_error`: it finds nothing if there is none.
-/

set_option autoImplicit false

namespace WatchHistory

open WatchHistory.Partition

/-! ## Searching from the end -/

theorem findSome?_reverse_of_greatest {α β : Type} (text : α → String) {as : List α}
    (hsorted : as.Pairwise fun a b => text a < text b) {f : α → Option β} {a : α} (ha : a ∈ as)
    {b : β} (hf : f a = some b) (hgreatest : ∀ x ∈ as, text a < text x → f x = none) :
    as.reverse.findSome? f = some b := by
  obtain ⟨before, after, rfl⟩ := List.append_of_mem ha
  have hafter : after.reverse.findSome? f = none := by
    refine List.findSome?_eq_none_iff.mpr fun x hx => ?_
    have hx := List.mem_reverse.mp hx
    have hlt := (List.pairwise_cons.mp (List.pairwise_append.mp hsorted).2.1).1 x hx
    exact hgreatest x (List.mem_append_right _ (List.mem_cons_of_mem _ hx)) hlt
  rw [List.reverse_append, List.reverse_cons, List.append_assoc, List.findSome?_append, hafter,
    List.cons_append, List.findSome?_cons, hf]
  rfl

/-! ## The keys of one object -/

/-- What the fields of an object's keys have to be for its observations to be found: without
slashes, and a name that is not empty. -/
structure Searchable (kind ns name : String) : Prop where
  slash_kind : '/' ∉ kind.toList
  slash_ns : '/' ∉ ns.toList
  slash_name : '/' ∉ name.toList
  named : name.toList ≠ []

/-- Whether a text is the key of an observation of an object. -/
structure Observes (kind ns name text : String) (k : Key .watch) : Prop where
  parse : Key.parse .watch text = .ok k
  kind_eq : k.kind = kind
  ns_eq : k.ns = ns
  name_eq : k.name = name

section

variable {kind ns name : String}

/-- The stem of the observations of an object in a partition. -/
def Key.stemOf (p kind ns name : String) : Key .watch := ⟨p, kind, ns, name, none⟩

theorem dropEmptyEnd_stemOf {p : String} (hp : p.toList ≠ []) (hname : name.toList ≠ []) :
    Key.dropEmptyEnd (Key.stemOf p kind ns name).fields =
      [p.toList, kind.toList, ns.toList, name.toList] := by
  have hempty : name.toList.isEmpty = false := by simpa using hname
  rw [Key.stemOf, Key.fields, Key.dropEmptyEnd_cons hp]
  simp [Key.dropEmptyEnd, Key.lastText, hempty]

theorem parse_stemOf_ne_ok {p : String} (hp : '/' ∉ p.toList) (hkind : '/' ∉ kind.toList)
    (hns : '/' ∉ ns.toList) (hname : '/' ∉ name.toList) (k : Key .watch) :
    Key.parse .watch (Key.stemOf p kind ns name).render ≠ .ok k := by
  refine fun hparse => Key.lastText_ne_nil_of_parse_render ?_ hparse rfl
  simp only [Key.fields, Key.stemOf, Key.lastText, List.mem_cons, List.not_mem_nil, or_false,
    forall_eq_or_imp, forall_eq, not_false_eq_true, and_true]
  exact ⟨hp, hkind, hns, hname⟩

theorem toList_render_stemOf (h : Searchable kind ns name) {p : String} (hp : p.toList ≠ []) :
    (Key.stemOf p kind ns name).render.toList =
      Key.slashed [Table.watch.name.toList, p.toList, kind.toList, ns.toList, name.toList] := by
  rw [Key.toList_render, dropEmptyEnd_stemOf hp h.named]

theorem getLast?_render_stemOf (h : Searchable kind ns name) {p : String} (hp : p.toList ≠ []) :
    (Key.stemOf p kind ns name).render.toList.getLast? ≠ some '/' := by
  obtain ⟨cs, c, hcs⟩ := (List.eq_nil_or_concat name.toList).resolve_left h.named
  have hc : c ≠ '/' := fun hc => h.slash_name (by rw [hcs]; simp [hc])
  have hend : Key.slashed [Table.watch.name.toList, p.toList, kind.toList, ns.toList,
      name.toList] = Key.slashed [Table.watch.name.toList, p.toList, kind.toList, ns.toList] ++
        '/' :: cs ++ [c] := by
    rw [hcs]
    simp [Key.slashed]
  rw [toList_render_stemOf h hp, hend, List.getLast?_concat]
  exact fun h => hc (Option.some.inj h)

theorem observes_iff_covers (h : Searchable kind ns name) {p : String} (hp : p.toList ≠ [])
    (hslash : '/' ∉ p.toList) {text : String} {k : Key .watch} :
    ((¬ text < (Key.stemOf p kind ns name).render ∧
        text < Store.stemEnd (Key.stemOf p kind ns name).render) ∧
      Key.covers (Key.stemOf p kind ns name).render text = true ∧
      Key.parse .watch text = .ok k) ↔ Observes kind ns name text k ∧ k.partition = p := by
  rw [Text.mem_range_iff]
  constructor
  · rintro ⟨-, hcovers, hparse⟩
    obtain ⟨rest, htext, hcut⟩ := Key.covers_iff_append.mp hcovers
    rcases hcut.resolve_left (getLast?_render_stemOf h hp) with rfl | hslashed
    · rw [List.append_nil] at htext
      rw [String.toList_injective htext] at hparse
      exact absurd hparse (parse_stemOf_ne_ok hslash h.slash_kind h.slash_ns h.slash_name k)
    · obtain ⟨last, rfl⟩ := List.head?_eq_some_iff.mp hslashed
      obtain ⟨last', hsplit, -⟩ := Key.parse_eq_ok_iff.mp hparse
      have hcut : text.toList = [] ++ '/' :: (Table.watch.name.toList ++ '/' :: (p.toList ++
          '/' :: (kind.toList ++ '/' :: (ns.toList ++ '/' :: (name.toList ++ '/' :: last))))) := by
        rw [htext, toList_render_stemOf h hp]
        simp [Key.slashed]
      rw [hcut, Text.split_append (by simp), Text.split_append (Key.slash_notMem_name .watch),
        Text.split_append hslash, Text.split_append h.slash_kind,
        Text.split_append h.slash_ns, Text.split_append h.slash_name] at hsplit
      simp only [List.cons.injEq, true_and, String.toList_inj] at hsplit
      obtain ⟨hpartition, hkind, hns, hname, -⟩ := hsplit
      exact ⟨⟨hparse, hkind.symm, hns.symm, hname.symm⟩, hpartition.symm⟩
  · rintro ⟨⟨hparse, rfl, rfl, rfl⟩, rfl⟩
    obtain ⟨last, htext, -⟩ := Key.exists_slashed_of_parse hparse
    have happend : text.toList =
        (Key.stemOf k.partition k.kind k.ns k.name).render.toList ++ '/' :: last := by
      rw [htext, toList_render_stemOf h hp]
      simp [Key.slashed]
    exact ⟨⟨_, happend, Text.plain_slash last⟩,
      Key.covers_iff_append.mpr ⟨_, happend, .inr (.inr rfl)⟩, hparse⟩

end

namespace Store

variable {s : Store} {kind ns name : String}

/-! ## One partition -/

theorem found_eq_some_iff (h : Searchable kind ns name) {p : String} (hp : p.toList ≠ [])
    (hslash : '/' ∉ p.toList) {key row : String}
    (hmem : (key, row) ∈ s.under (Key.stemOf p kind ns name).render) {k : Key .watch} :
    (if Key.covers (Key.stemOf p kind ns name).render key then
      (Key.parse .watch key).toOption else none) = some k ↔
      Observes kind ns name key k ∧ k.partition = p := by
  obtain ⟨-, hrange⟩ := mem_under.mp hmem
  rw [← observes_iff_covers h hp hslash]
  constructor
  · intro hfound
    split at hfound
    · next hcovers =>
      refine ⟨hrange, hcovers, ?_⟩
      cases hparse : Key.parse .watch key with
      | error e => rw [hparse] at hfound; cases hfound
      | ok k' => rw [hparse] at hfound; cases hfound; rfl
    · cases hfound
  · rintro ⟨-, hcovers, hparse⟩
    rw [if_pos hcovers, hparse]
    rfl

/-- `lastMatch?` finds the greatest key of an observation of the object in a partition. -/
theorem lastMatch?_eq_some (h : Searchable kind ns name) {p : String} (hp : p.toList ≠ [])
    (hslash : '/' ∉ p.toList) {key row : String} {k : Key .watch} (hrow : s.get? key = some row)
    (hk : Observes kind ns name key k) (hkp : k.partition = p)
    (hgreatest : ∀ key' row' k', s.get? key' = some row' → Observes kind ns name key' k' →
      k'.partition = p → ¬ key < key') :
    s.lastMatch? p (.comparator .watch kind ns name none) none = some k := by
  have hunder : (key, row) ∈ s.under (Key.stemOf p kind ns name).render :=
    mem_under.mpr ⟨hrow, ((observes_iff_covers h hp hslash).mpr ⟨hk, hkp⟩).1⟩
  refine findSome?_reverse_of_greatest Prod.fst (s.pairwise_between _ _) hunder
    ((found_eq_some_iff h hp hslash hunder).mpr ⟨hk, hkp⟩) fun x hx hlt => ?_
  apply Option.eq_none_iff_forall_ne_some.mpr
  intro k' hk'
  obtain ⟨hobserves, hkp'⟩ := (found_eq_some_iff h hp hslash hx).mp hk'
  exact hgreatest x.1 x.2 k' (mem_under.mp hx).1 hobserves hkp' hlt

theorem lastMatch?_eq_none (h : Searchable kind ns name) {p : String} (hp : p.toList ≠ [])
    (hslash : '/' ∉ p.toList) (hnone : ∀ key row k, s.get? key = some row →
      Observes kind ns name key k → k.partition ≠ p) :
    s.lastMatch? p (.comparator .watch kind ns name none) none = none := by
  refine List.findSome?_eq_none_iff.mpr fun x hx => ?_
  have hx : x ∈ s.under (Key.stemOf p kind ns name).render := List.mem_reverse.mp hx
  apply Option.eq_none_iff_forall_ne_some.mpr
  intro k hk
  obtain ⟨hobserves, hkp⟩ := (found_eq_some_iff h hp hslash hx).mp hk
  exact hnone x.1 x.2 k (mem_under.mp hx).1 hobserves hkp

theorem lastMatch?_stemOf (p : String) :
    s.lastMatch? p (.comparator .watch kind ns name none)
        (some (stemEnd (Key.stemOf p kind ns name).render)) =
      s.lastMatch? p (.comparator .watch kind ns name none) none := by
  unfold lastMatch?
  show (s.between (Key.stemOf p kind ns name).render (earliest
    (stemEnd (Key.stemOf p kind ns name).render)
    (stemEnd (Key.stemOf p kind ns name).render))).reverse.findSome? _ = _
  rw [earliest, if_neg (String.lt_irrefl _)]
  rfl

/-! ## All partitions -/

/-- `tablePartitions` finds the partitions of a table in order and leaves none out, if its ids are
on the grid and the one after each of them has twelve digits. -/
theorem tablePartitions_spec {g : Granularity} {t : Table} (hkeyed : s.Keyed)
    (hgrid : ∀ p, s.Holds t p → ∃ second, p = idAt second ∧ InRange second ∧ g.seconds ∣ second ∧
      InRange (second + g.seconds)) :
    ∃ ids, s.tablePartitions g t = .ok ids ∧ (ids.Pairwise fun a b => a < b) ∧
      (∀ p ∈ ids, ∃ second, p = idAt second) ∧ ∀ p, s.Holds t p → p ∈ ids := by
  obtain ⟨b, hb, hspans⟩ := tableBounds_spec hkeyed t
  have hpartitions : s.tablePartitions g t = partitionsWithin g b := by
    unfold tablePartitions
    rw [hb]
    rfl
  rw [hpartitions]
  cases b with
  | none => exact ⟨[], rfl, .nil, nofun, fun p hp => absurd hp (hspans p)⟩
  | some bounds =>
    obtain ⟨first, last⟩ := bounds
    obtain ⟨hfirst, hlast, hall⟩ := hspans
    obtain ⟨a, rfl, ha, had, -⟩ := hgrid first hfirst
    obtain ⟨z, rfl, hz, hzd, hnext⟩ := hgrid last hlast
    obtain ⟨ids, hids, hsorted, hmem⟩ := g.between_eq ha had hz hzd hnext
    refine ⟨ids, hids, hsorted, fun p hp => ?_, fun p hp => (hmem p).mpr ?_⟩
    · obtain ⟨second, hid, -⟩ := (hmem p).mp hp
      exact ⟨second, hid⟩
    · obtain ⟨second, rfl, hrange, hdvd, -⟩ := hgrid p hp
      obtain ⟨hafter, hbefore⟩ := hall _ hp
      rw [idAt_lt_idAt_iff hrange ha] at hafter
      rw [idAt_lt_idAt_iff hz hrange] at hbefore
      exact ⟨second, rfl, hdvd, by omega, by omega⟩

/-- Whether a list has every partition of the table of observations, in order. -/
structure Lists (s : Store) (g : Granularity) (ids : List String) : Prop where
  eq_ok : s.tablePartitions g .watch = .ok ids
  sorted : ids.Pairwise fun a b => a < b
  is_id : ∀ p ∈ ids, ∃ second, p = idAt second
  complete : ∀ p, s.Holds .watch p → p ∈ ids

variable {g : Granularity} {time : Instant}

theorem exists_lists (hkeyed : s.Keyed)
    (hgrid : ∀ p, s.Holds .watch p → ∃ second, p = idAt second ∧ InRange second ∧
      g.seconds ∣ second ∧ InRange (second + g.seconds)) : ∃ ids, s.Lists g ids := by
  obtain ⟨ids, hids, hsorted, hid, hcomplete⟩ := tablePartitions_spec hkeyed hgrid
  exact ⟨ids, hids, hsorted, hid, hcomplete⟩

theorem previousKey_error_cases {t : Table} {k comparator : Key t} {e : StoreError}
    (h : s.previousKey g k comparator = .error e) :
    s.tablePartitions g t = .error e ∨ e.isNotFound = true := by
  unfold previousKey at h
  dsimp only at h
  split at h
  · cases h
  · rcases bind_eq_error.mp h with h | ⟨_, -, h⟩
    · exact .inl h
    · split at h
      · cases h
      · cases h
        exact .inr rfl

theorem exists_fault_stemOf (hkind : '/' ∉ kind.toList) (hns : '/' ∉ ns.toList)
    (hname : '/' ∉ name.toList) (g : Granularity) (time : Instant) :
    ∃ fault, Key.parse .watch (Key.stemOf (g.partitionOf time) kind ns name).render =
      .error fault := by
  have hp : '/' ∉ (g.partitionOf time).toList := slash_notMem_idAt (g.floor time.seconds)
  cases hparse : Key.parse .watch (Key.stemOf (g.partitionOf time) kind ns name).render with
  | error fault => exact ⟨fault, rfl⟩
  | ok k => exact absurd hparse (parse_stemOf_ne_ok hp hkind hns hname k)

theorem previousKey_of_lastMatch? (h : Searchable kind ns name) {found : Key .watch}
    (hfound : s.lastMatch? (g.partitionOf time) (.comparator .watch kind ns name none) none =
      some found) :
    s.previousKey g (.observations g time kind ns name) (.comparator .watch kind ns name none) =
      .ok found := by
  have hstem : Key.observations g time kind ns name =
      Key.stemOf (g.partitionOf time) kind ns name := rfl
  have hpartition : (Key.stemOf (g.partitionOf time) kind ns name).partition =
      g.partitionOf time := rfl
  obtain ⟨fault, hfault⟩ := exists_fault_stemOf h.slash_kind h.slash_ns h.slash_name g time
  unfold previousKey
  rw [hstem]
  dsimp only
  rw [hfault, hpartition]
  dsimp only
  rw [lastMatch?_stemOf, hfound]
  rfl

/-- `previousKey` looks into the partition of its key and then into older ones, from the newest
on. -/
theorem previousKey_eq (h : Searchable kind ns name) {ids : List String} (hids : s.Lists g ids) :
    s.previousKey g (.observations g time kind ns name) (.comparator .watch kind ns name none) =
      match s.lastMatch? (g.partitionOf time) (.comparator .watch kind ns name none) none with
      | some found => .ok found
      | none =>
        match (ids.filter fun p => p < g.partitionOf time).reverse.findSome?
            fun p => s.lastMatch? p (.comparator .watch kind ns name none) none with
        | some found => .ok found
        | none => .error (.noEarlier (Key.observations g time kind ns name).render
            (Key.comparator .watch kind ns name none).render) := by
  have hstem : Key.observations g time kind ns name =
      Key.stemOf (g.partitionOf time) kind ns name := rfl
  obtain ⟨fault, hfault⟩ := exists_fault_stemOf h.slash_kind h.slash_ns h.slash_name g time
  have hpartition : (Key.stemOf (g.partitionOf time) kind ns name).partition =
      g.partitionOf time := rfl
  unfold previousKey
  rw [hstem, hids.eq_ok]
  dsimp only
  rw [hfault, hpartition]
  dsimp only
  rw [lastMatch?_stemOf]
  cases s.lastMatch? (g.partitionOf time) (.comparator .watch kind ns name none) none with
  | some found => rfl
  | none =>
    rw [← List.filter_reverse]
    show (Except.ok ids >>= fun ids => _) = _
    dsimp only [bind, Except.bind]
    cases (ids.reverse.filter fun p => decide (p < g.partitionOf time)).findSome?
        fun p => s.lastMatch? p (.comparator .watch kind ns name none) none <;> rfl

/-- **The greatest key of an observation** in the newest partition up to the one that is asked for
is found. -/
theorem previousKey_eq_of_greatest (h : Searchable kind ns name) {ids : List String}
    (hids : s.Lists g ids) {key row : String} {k : Key .watch} (hrow : s.get? key = some row)
    (hk : Observes kind ns name key k) (hle : ¬ g.partitionOf time < k.partition)
    (hgreatest : ∀ key' row' k', s.get? key' = some row' → Observes kind ns name key' k' →
      ¬ g.partitionOf time < k'.partition →
      k'.partition < k.partition ∨ (k'.partition = k.partition ∧ ¬ key < key')) :
    s.previousKey g (.observations g time kind ns name) (.comparator .watch kind ns name none) =
      .ok k := by
  have hne : (g.partitionOf time).toList ≠ [] := (ranked_idAt (g.floor time.seconds)).1
  have hslash : '/' ∉ (g.partitionOf time).toList := slash_notMem_idAt (g.floor time.seconds)
  have hfound : k.partition.toList ≠ [] → '/' ∉ k.partition.toList →
      s.lastMatch? k.partition (.comparator .watch kind ns name none) none = some k := by
    refine fun hne hslash => lastMatch?_eq_some h hne hslash hrow hk rfl
      fun key' row' k' hrow' hk' hp => ?_
    rcases hgreatest key' row' k' hrow' hk' (hp ▸ hle) with hlt | ⟨-, hnot⟩
    · exact absurd (hp ▸ hlt) (String.lt_irrefl _)
    · exact hnot
  rw [previousKey_eq h hids]
  by_cases hp : k.partition = g.partitionOf time
  · rw [← hp, hfound (hp ▸ hne) (hp ▸ hslash)]
  · have hlt : k.partition < g.partitionOf time :=
      Decidable.byContradiction fun hlt => hp (StrictOrder.connex hlt hle)
    have hnone : s.lastMatch? (g.partitionOf time) (.comparator .watch kind ns name none) none =
        none := by
      refine lastMatch?_eq_none h hne hslash fun key' row' k' hrow' hk' hp' => ?_
      rcases hgreatest key' row' k' hrow' hk' (hp' ▸ String.lt_irrefl _) with hlt' | ⟨hsame, -⟩
      · exact hle (hp' ▸ hlt')
      · exact hp (hsame.symm.trans hp')
    have hmem : k.partition ∈ ids.filter fun p => p < g.partitionOf time :=
      List.mem_filter.mpr
        ⟨hids.complete _ ⟨key, row, hrow, k, hk.parse, rfl⟩, decide_eq_true hlt⟩
    obtain ⟨second, hid⟩ := hids.is_id _ (List.mem_filter.mp hmem).1
    rw [hnone, findSome?_reverse_of_greatest id (hids.sorted.filter _) hmem
      (hfound (hid ▸ (ranked_idAt second).1) (hid ▸ slash_notMem_idAt second)) ?_]
    intro p hmem' hlt'
    obtain ⟨hmem', hp'⟩ := List.mem_filter.mp hmem'
    obtain ⟨second', rfl⟩ := hids.is_id p hmem'
    refine lastMatch?_eq_none h (ranked_idAt second').1 (slash_notMem_idAt second')
      fun key' row' k' hrow' hk' hkp' => ?_
    have hbefore : ¬ g.partitionOf time < k'.partition :=
      hkp' ▸ String.lt_asymm (of_decide_eq_true hp')
    rcases hgreatest key' row' k' hrow' hk' hbefore with hlt'' | ⟨hsame, -⟩
    · exact String.lt_asymm hlt' (hkp' ▸ hlt'')
    · exact String.lt_irrefl _ (hkp' ▸ hsame ▸ hlt')

theorem previousKey_eq_error (h : Searchable kind ns name) {ids : List String}
    (hids : s.Lists g ids) (hnone : ∀ key row k, s.get? key = some row →
      Observes kind ns name key k → g.partitionOf time < k.partition) :
    s.previousKey g (.observations g time kind ns name) (.comparator .watch kind ns name none) =
      .error (.noEarlier (Key.observations g time kind ns name).render
        (Key.comparator .watch kind ns name none).render) := by
  have hown : s.lastMatch? (g.partitionOf time) (.comparator .watch kind ns name none) none =
      none :=
    lastMatch?_eq_none h (ranked_idAt (g.floor time.seconds)).1
      (slash_notMem_idAt (g.floor time.seconds)) fun key row k hrow hk hp =>
        String.lt_irrefl _ (hp ▸ hnone key row k hrow hk)
  have holder : (ids.filter fun p => p < g.partitionOf time).reverse.findSome?
      (fun p => s.lastMatch? p (.comparator .watch kind ns name none) none) = none := by
    refine List.findSome?_eq_none_iff.mpr fun p hp => ?_
    obtain ⟨hmem, hlt⟩ := List.mem_filter.mp (List.mem_reverse.mp hp)
    obtain ⟨second, rfl⟩ := hids.is_id p hmem
    exact lastMatch?_eq_none h (ranked_idAt second).1 (slash_notMem_idAt second)
      fun key row k hrow hk hkp =>
        String.lt_asymm (of_decide_eq_true hlt) (hkp ▸ hnone key row k hrow hk)
  rw [previousKey_eq h hids, hown, holder]

end Store

end WatchHistory
