import WatchHistory.Proofs.Partition.Between
import WatchHistory.Proofs.Store.Agree
import WatchHistory.Proofs.Store.Scan

/-!
# Scans over damaged rows

`Store.legible` leaves out every row whose key is not complete or whose text cannot be read. A scan
passes over such rows wherever it sees them (`found_legible`), and of the partitions with a legible
row it goes through those in its span, whatever else is in the store (`mem_span`). So it finds the
rows that it finds without the damaged ones. Before that, however, it reads the first and the last
key of the table for its bounds, and where one of these two is damaged the scan as a whole can fail
(`scan_legible`, `scan_strayFront`).
-/

set_option autoImplicit false

namespace WatchHistory.Store

open WatchHistory.Partition

variable {t : Table} {s : Store} {g : Granularity} {start stop : Instant}

/-! ## Legible rows -/

/-- Whether the key of a row is one of the table that it names, and its text a row of that table. -/
def isLegible (r : String × String) : Bool :=
  match AnyKey.parse r.1 with
  | .ok k => (k.table.read? r.2).isSome
  | .error _ => false

/-- The rows of a store that are legible. -/
def legible (s : Store) : Store := ⟨⟨s.rows.entries.filter isLegible, s.rows.ascending.filter _⟩⟩

theorem isLegible_of_pair? {row : t.Row → Bool} {r : String × String} {e : Key t × t.Row}
    (h : Scan.pair? row r = some e) : isLegible r = true := by
  obtain ⟨hk, hv, -⟩ := Scan.pair?_eq_some_iff.mp h
  unfold isLegible
  rw [AnyKey.parse_eq_ok_iff.mpr hk]
  dsimp only
  rw [hv]
  rfl

theorem get?_legible {key text : String} :
    s.legible.get? key = some text ↔ s.get? key = some text ∧ isLegible (key, text) = true := by
  unfold get?
  rw [← SortedMap.mem_iff_get?, ← SortedMap.mem_iff_get?]
  exact List.mem_filter

theorem between_legible (s : Store) (lower upper : String) :
    s.legible.between lower upper = (s.between lower upper).filter isLegible :=
  List.filter_comm _ _ _

theorem under_legible (s : Store) (stem : String) :
    s.legible.under stem = (s.under stem).filter isLegible :=
  between_legible ..

theorem covered_legible (s : Store) (p : String) (stem : Option (Key t)) :
    s.legible.covered t p stem = (s.covered t p stem).filter isLegible := by
  unfold covered
  dsimp only
  rw [under_legible]
  exact List.filter_comm _ _ _

/-! ## What is found in a partition -/

/-- The keys and rows that a scan finds in a partition. -/
def found (s : Store) (stem : Option (Key t)) (key : String → Bool) (row : t.Row → Bool)
    (p : String) : List (Key t × t.Row) :=
  ((s.covered t p stem).filter fun r => key r.1).filterMap (Scan.pair? row)

/-- **Damaged rows are passed over** by what a scan finds in a partition. -/
theorem found_legible (s : Store) (stem : Option (Key t)) (key : String → Bool)
    (row : t.Row → Bool) (p : String) :
    s.legible.found stem key row p = s.found stem key row p := by
  unfold found
  rw [covered_legible, List.filter_comm, List.filterMap_filter]
  refine congrFun (congrArg List.filterMap (funext fun r => ?_)) _
  split
  · rfl
  · next hnot =>
    cases hpair : Scan.pair? row r with
    | none => rfl
    | some e => exact absurd (isLegible_of_pair? hpair) hnot

theorem partition_of_covers_retarget {p text : String} {k c : Key t} (hp : p.toList ≠ [])
    (hslash : '/' ∉ p.toList) (hk : Key.parse t text = .ok k)
    (hcovers : Key.covers (c.retarget p).render text = true) : k.partition = p := by
  obtain ⟨ss, hss⟩ := exists_slashed_retarget hp c
  obtain ⟨rest, hrest, hcut⟩ := Key.covers_iff_append.mp hcovers
  rw [hss, List.append_assoc] at hrest
  have hfiled : Filed t k.partition text := ⟨k, hk, rfl⟩
  cases ss with
  | cons x ss =>
    have htext : text.toList =
        t.stem.toList ++ (p.toList ++ '/' :: (x ++ Key.slashed ss ++ rest)) := by
      rw [hrest]
      simp [Key.slashed]
    exact (hfiled.eq_of_append hslash htext).2
  | nil =>
    have hend : (c.retarget p).render.toList.getLast? ≠ some '/' := by
      rw [hss, Key.slashed, List.flatMap_nil, List.append_nil, List.getLast?_append_of_ne_nil _ hp]
      exact fun hlast => hslash (List.mem_of_getLast? hlast)
    rcases hcut.resolve_left hend with rfl | hslashed
    · -- The id is the last segment, so the key is not complete.
      obtain ⟨rest, hmore⟩ := hfiled.exists_append
      rw [hrest, List.append_cancel_left_eq] at hmore
      refine absurd ?_ hslash
      simp only [Key.slashed, List.flatMap_nil, List.append_nil] at hmore
      rw [hmore]
      simp
    · obtain ⟨rest, rfl⟩ := List.head?_eq_some_iff.mp hslashed
      have htext : text.toList = t.stem.toList ++ (p.toList ++ '/' :: rest) := by
        rw [hrest]
        simp [Key.slashed]
      exact (hfiled.eq_of_append hslash htext).2

theorem partition_of_mem_covered {p : String} {k : Key t} {stem : Option (Key t)}
    {r : String × String} (hp : p.toList ≠ []) (hslash : '/' ∉ p.toList)
    (hk : Key.parse t r.1 = .ok k) (hr : r ∈ s.covered t p stem) : k.partition = p := by
  have hcovers := (List.mem_filter.mp hr).2
  cases stem with
  | some c => exact partition_of_covers_retarget hp hslash hk hcovers
  | none =>
    obtain ⟨rest, hrest, -⟩ := Key.covers_iff_append.mp hcovers
    have hfiled : Filed t k.partition r.1 := ⟨k, hk, rfl⟩
    have htext : r.1.toList = t.stem.toList ++ (p.toList ++ '/' :: rest) := by
      rw [hrest]
      simp [Table.partitionStem, Table.stem]
    exact (hfiled.eq_of_append hslash htext).2

theorem exists_of_found_ne_nil {stem : Option (Key t)} {key : String → Bool} {row : t.Row → Bool}
    {p : String} (hp : p.toList ≠ []) (hslash : '/' ∉ p.toList)
    (h : s.found stem key row p ≠ []) :
    ∃ key text, s.get? key = some text ∧ isLegible (key, text) = true ∧ Filed t p key := by
  obtain ⟨⟨k, v⟩, hkv⟩ := List.exists_mem_of_ne_nil _ h
  obtain ⟨r, hr, hpair⟩ := List.mem_filterMap.mp hkv
  have hcovered := (List.mem_filter.mp hr).1
  have hk := (Scan.pair?_eq_some_iff.mp hpair).1
  exact ⟨r.1, r.2, (mem_under.mp (List.mem_filter.mp hcovered).1).1, isLegible_of_pair? hpair,
    k, hk, partition_of_mem_covered hp hslash hk hcovered⟩

/-! ## The partitions of a scan -/

/-- The partitions that a scan goes through. -/
def span (s : Store) (g : Granularity) (t : Table) (start stop : Instant) :
    Except StoreError (List String) := do
  match ← s.tableBounds t with
  | none => return []
  | some (min, max) =>
    g.between (latest (g.partitionOf start) min) (earliest (g.partitionOf stop) max)

theorem scan_eq_span (stem : Option (Key t)) (key : String → Bool) (row : t.Row → Bool) :
    s.scan g stem key row start stop = (s.span g t start stop).map fun ids =>
      ids.foldl (fun found p => found.visit (s.covered t p stem) key row) .empty := by
  unfold scan span
  rw [map_bind]
  refine congrArg _ (funext fun bounds => ?_)
  rcases bounds with _ | ⟨min, max⟩
  · rfl
  · dsimp only
    cases g.between (latest (g.partitionOf start) min) (earliest (g.partitionOf stop) max) <;> rfl

theorem rows_of_scan {stem : Option (Key t)} {key : String → Bool} {row : t.Row → Bool}
    {scanned : Scan t} (h : s.scan g stem key row start stop = .ok scanned) :
    ∃ ids, s.span g t start stop = .ok ids ∧
      scanned.rows = SortedMap.ofList (ids.flatMap (s.found stem key row)) := by
  rw [scan_eq_span] at h
  obtain ⟨ids, hids, rfl⟩ := map_eq_ok.mp h
  refine ⟨ids, hids, ?_⟩
  rw [Scan.foldl_visit, List.filter_flatMap, List.filterMap_flatMap]
  rfl

theorem span_spec {ids : List String} (h : s.span g t start stop = .ok ids) :
    (ids.Pairwise fun p q => p < q) ∧ ∀ p ∈ ids, ∃ second, p = idAt second ∧ InRange second := by
  obtain ⟨bounds, -, h⟩ := bind_eq_ok.mp h
  rcases bounds with _ | ⟨min, max⟩
  · cases h
    exact ⟨.nil, nofun⟩
  · obtain ⟨a, b, ⟨-, ha⟩, ⟨-, hb⟩, hids⟩ := g.exists_of_between h
    exact ⟨hids.ascending, fun p hp => hids.exists_inRange ha hb hp⟩

theorem exists_ends_of_tableBounds {bounds : Option (String × String)}
    (h : s.tableBounds t = .ok bounds) {key text : String} (hmem : (key, text) ∈ s.under t.stem) :
    ∃ first last min max, bounds = some (min, max) ∧ Filed t min first ∧ Filed t max last ∧
      ∀ r ∈ s.under t.stem, ¬ r.1 < first ∧ ¬ last < r.1 := by
  obtain ⟨first, -, last, -, hhead, hgetLast, hends⟩ :=
    exists_ends (s.pairwise_between _ _) (List.ne_nil_of_mem hmem)
  unfold tableBounds minKey? maxKey? firstKey? lastKey? under at h
  rw [hhead, hgetLast] at h
  obtain ⟨k, hk, h⟩ := bind_eq_ok.mp h
  obtain ⟨k', hk', h⟩ := bind_eq_ok.mp h
  cases h
  exact ⟨first.1, last.1, _, _, rfl, ⟨k, parseKey_eq_ok.mp hk, rfl⟩,
    ⟨k', parseKey_eq_ok.mp hk', rfl⟩, hends⟩

/-- **Whether a partition is scanned** depends on the span alone, where it holds a row of the
table. -/
theorem mem_span {ids : List String} (h : s.span g t start stop = .ok ids) {key text : String}
    (hrow : s.get? key = some text) {q : Int} (hq : InRange q) (hfiled : Filed t (idAt q) key) :
    idAt q ∈ ids ↔
      g.seconds ∣ q ∧ ¬ idAt q < g.partitionOf start ∧ ¬ g.partitionOf stop < idAt q := by
  have hunder : (key, text) ∈ s.under t.stem :=
    mem_under.mpr ⟨hrow, hfiled.mem_range_stem_iff.mpr rfl⟩
  obtain ⟨bounds, hbounds, h⟩ := bind_eq_ok.mp h
  obtain ⟨first, last, min, max, rfl, hmin, hmax, hends⟩ :=
    exists_ends_of_tableBounds hbounds hunder
  obtain ⟨hfirst, hlast⟩ := hends _ hunder
  obtain ⟨a, b, ⟨hfrom, ha⟩, ⟨hto, hb⟩, hids⟩ := g.exists_of_between h
  -- Where a bound of the table cuts the span, its key is the first or the last one of the table,
  -- and keys of one table are in the order of their partitions: no row is cut off.
  have hlower : g.floor a ≤ q ↔ ¬ idAt q < g.partitionOf start := by
    unfold latest at hfrom
    split at hfrom
    · next hlt =>
      subst hfrom
      have hafter := hmin.not_lt_of_not_lt hfiled hfirst
      refine iff_of_true ?_ fun hbefore => hafter (String.lt_trans hbefore hlt)
      rw [idAt_lt_idAt_iff hq ha] at hafter
      exact Int.le_trans (g.floor_le a) (Int.not_lt.mp hafter)
    · have hstart : InRange (g.floor start.seconds) :=
        start_idAt_iff.mp ⟨startAt a, by rw [← start_idAt ha, ← hfrom]; rfl⟩
      obtain rfl := idAt_injective hstart ha hfrom
      rw [g.floor_of_dvd (g.dvd_floor _), Granularity.partitionOf, idAt_lt_idAt_iff hq hstart,
        Int.not_lt]
  have hupper : q ≤ b ↔ ¬ g.partitionOf stop < idAt q := by
    unfold earliest at hto
    split at hto
    · next hlt =>
      subst hto
      have hbefore := hfiled.not_lt_of_not_lt hmax hlast
      refine iff_of_true ?_ fun hafter => hbefore (String.lt_trans hlt hafter)
      rw [idAt_lt_idAt_iff hb hq] at hbefore
      exact Int.not_lt.mp hbefore
    · rw [hto, idAt_lt_idAt_iff hb hq, Int.not_lt]
  rw [hids.mem_idAt_iff ha hb hq, hlower, hupper]

/-! ## The same rows -/

theorem flatMap_eq_of_mem {α : Type} {f : String → List α} {ps qs : List String}
    (hps : ps.Pairwise fun p q => p < q) (hqs : qs.Pairwise fun p q => p < q)
    (h : ∀ p, f p ≠ [] → (p ∈ ps ↔ p ∈ qs)) : ps.flatMap f = qs.flatMap f := by
  have hdrop : ∀ ids : List String,
      ids.flatMap f = (ids.filter fun p => !(f p).isEmpty).flatMap f := by
    intro ids
    induction ids with
    | nil => rfl
    | cons p ids ih =>
      rw [List.flatMap_cons, ih, List.filter_cons]
      split
      · rfl
      · next hempty =>
        have hnil : f p = [] := by simpa using hempty
        rw [hnil]
        rfl
  rw [hdrop ps, hdrop qs, SortedMap.keys_eq_of_mem (hps.filter _) (hqs.filter _) fun p => ?_]
  rw [List.mem_filter, List.mem_filter]
  exact and_congr_left fun hnonempty => h p (by simpa using hnonempty)

section

variable {stem : Option (Key t)} {key : String → Bool} {row : t.Row → Bool}

/-- Scans with and without the damaged rows find the same rows, if both succeed. -/
theorem rows_eq_of_legible {full less : Scan t}
    (hfull : s.scan g stem key row start stop = .ok full)
    (hless : s.legible.scan g stem key row start stop = .ok less) : full.rows = less.rows := by
  obtain ⟨ids, hids, hrows⟩ := rows_of_scan hfull
  obtain ⟨ids', hids', hrows'⟩ := rows_of_scan hless
  obtain ⟨hsorted, hrange⟩ := span_spec hids
  obtain ⟨hsorted', hrange'⟩ := span_spec hids'
  have hfound : s.legible.found stem key row = s.found stem key row :=
    funext (found_legible s stem key row)
  rw [hrows, hrows', hfound]
  refine congrArg SortedMap.ofList (flatMap_eq_of_mem hsorted hsorted' fun p hp => ?_)
  have hiff : ∀ q, p = idAt q → InRange q → (p ∈ ids ↔ p ∈ ids') := by
    rintro q rfl hq
    obtain ⟨key, text, hrow, hlegible, hfiled⟩ :=
      exists_of_found_ne_nil (ranked_idAt q).1 (slash_notMem_idAt q) hp
    rw [mem_span hids hrow hq hfiled,
      mem_span hids' (get?_legible.mpr ⟨hrow, hlegible⟩) hq hfiled]
  constructor
  · intro hmem
    obtain ⟨q, hpq, hq⟩ := hrange p hmem
    exact (hiff q hpq hq).mp hmem
  · intro hmem
    obtain ⟨q, hpq, hq⟩ := hrange' p hmem
    exact (hiff q hpq hq).mpr hmem

/-! ## Failures -/

/-- Whether a row is the first or the last one of the table. -/
inductive IsEnd (s : Store) (t : Table) (r : String × String) : Prop
  | first (h : (s.under t.stem).head? = some r)
  | last (h : (s.under t.stem).getLast? = some r)

theorem tableBounds_eq_error {e : StoreError} (h : s.tableBounds t = .error e) :
    ∃ r fault, s.IsEnd t r ∧ Key.parse t r.1 = .error fault ∧ e = .badKey fault := by
  unfold tableBounds minKey? maxKey? firstKey? lastKey? at h
  cases hhead : (s.under t.stem).head? with
  | none => rw [hhead] at h; cases h
  | some first =>
    cases hgetLast : (s.under t.stem).getLast? with
    | none => rw [hhead, hgetLast] at h; cases h
    | some last =>
      rw [hhead, hgetLast] at h
      rcases bind_eq_error.mp h with h | ⟨_, -, h⟩
      · obtain ⟨fault, hfault, rfl⟩ := mapError_eq_error.mp h
        exact ⟨first, fault, .first hhead, hfault, rfl⟩
      rcases bind_eq_error.mp h with h | ⟨_, -, h⟩
      · obtain ⟨fault, hfault, rfl⟩ := mapError_eq_error.mp h
        exact ⟨last, fault, .last hgetLast, hfault, rfl⟩
      · cases h

theorem span_eq_error {e : StoreError} (h : s.span g t start stop = .error e) :
    (∃ r fault, s.IsEnd t r ∧ Key.parse t r.1 = .error fault ∧ e = .badKey fault) ∨
      ∃ id, e = .badPartition id := by
  rcases bind_eq_error.mp h with h | ⟨bounds, -, h⟩
  · exact .inl (tableBounds_eq_error h)
  · rcases bounds with _ | ⟨min, max⟩
    · cases h
    · exact .inr (g.between_eq_error h)

theorem tableBounds_legible (h : ∀ r, s.IsEnd t r → isLegible r = true) :
    s.legible.tableBounds t = s.tableBounds t := by
  have hhead : ∀ rows : List (String × String), (∀ r, rows.head? = some r → isLegible r = true) →
      (rows.filter isLegible).head? = rows.head? := by
    intro rows hrows
    cases rows with
    | nil => rfl
    | cons r rows => rw [List.filter_cons_of_pos (hrows r rfl)]; rfl
  have hfirst := hhead _ fun r hr => h r (.first hr)
  have hlast := hhead (s.under t.stem).reverse fun r hr =>
    h r (.last (List.getLast?_eq_head?_reverse.trans hr))
  rw [List.filter_reverse, List.head?_reverse, List.head?_reverse] at hlast
  unfold tableBounds minKey? maxKey? firstKey? lastKey?
  rw [under_legible, hfirst, hlast]

/-- **Damaged rows are local to themselves, except for the ends of a table.** Where a scan succeeds
without the damaged rows, it finds the same rows with them, or it fails. It fails only if the first
or the last row of the table is damaged, and then with the fault of the key of one of these or with
an id that does not read. -/
theorem scan_legible {less : Scan t}
    (hless : s.legible.scan g stem key row start stop = .ok less) :
    (∃ full, s.scan g stem key row start stop = .ok full ∧ full.rows = less.rows) ∨
    ∃ e, s.scan g stem key row start stop = .error e ∧
      (∃ r, s.IsEnd t r ∧ isLegible r = false) ∧
      ((∃ r fault, s.IsEnd t r ∧ Key.parse t r.1 = .error fault ∧ e = .badKey fault) ∨
        ∃ id, e = .badPartition id) := by
  cases hscan : s.scan g stem key row start stop with
  | ok full => exact .inl ⟨full, rfl, rows_eq_of_legible hscan hless⟩
  | error e =>
    have hspan : s.span g t start stop = .error e := by
      rw [scan_eq_span] at hscan
      cases hids : s.span g t start stop with
      | ok ids => rw [hids] at hscan; cases hscan
      | error e' => rw [hids] at hscan; cases hscan; rfl
    refine .inr ⟨e, rfl, ?_, span_eq_error hspan⟩
    by_contra hnone
    have hends : ∀ r, s.IsEnd t r → isLegible r = true := by
      intro r hr
      by_contra hnot
      exact hnone ⟨r, hr, Bool.eq_false_of_not_eq_true hnot⟩
    obtain ⟨ids, hids, -⟩ := rows_of_scan hless
    unfold span at hids hspan
    rw [tableBounds_legible hends, hspan] at hids
    cases hids

end

/-- The key of a pod in the first hour. -/
def firstHourOf (name : String) : Key .activity :=
  .within .hour .activity .epoch "Pod" "ns" name "u"

/-- Three pods, of which the text of the second one is cut off. -/
def cutInside : Store :=
  ((empty.insert (firstHourOf "a").render (Table.activity.write ⟨[], [0]⟩)).insert
    (firstHourOf "b").render "\x7b").insert
    (firstHourOf "c").render (Table.activity.write ⟨[], [0]⟩)

/-- The damaged row of `cutInside`, which is neither the first nor the last of its table, is passed
over. -/
theorem scan_legible_cutInside :
    ∃ less full, cutInside.legible.scan .hour (none : Option (Key .activity)) (fun _ => true)
        (fun _ => true) .epoch .epoch = .ok less ∧
      cutInside.scan .hour none (fun _ => true) (fun _ => true) .epoch .epoch = .ok full ∧
      full.rows = less.rows ∧ less.rows.size = 2 ∧ cutInside.rows.size = 3 := by
  have hrun : (cutInside.legible.scan .hour (none : Option (Key .activity)) (fun _ => true)
      (fun _ => true) .epoch .epoch).toOption.map (fun less => less.rows.size) = some 2 := by
    decide +kernel
  have hfull : (cutInside.scan .hour (none : Option (Key .activity)) (fun _ => true)
      (fun _ => true) .epoch .epoch).toOption.isSome = true := by
    decide +kernel
  obtain ⟨less, hless, hsize⟩ := Option.map_eq_some_iff.mp hrun
  have hless := eq_ok_of_toOption hless
  rcases scan_legible hless with ⟨full, hscan, hrows⟩ | ⟨e, hscan, -⟩
  · exact ⟨less, full, hless, hscan, hrows, hsize, by decide +kernel⟩
  · rw [hscan] at hfull
    cases hfull

/-- A pod, and a row before it whose key has two segments. -/
def strayFront : Store :=
  (empty.insert (firstHourOf "web").render (Table.activity.write ⟨[], [0]⟩)).insert
    "/watchactivity/!" "\x7b"

/-- The damaged row of `strayFront`, which is the first of its table, makes the whole scan fail. -/
theorem scan_strayFront :
    (∃ less, strayFront.legible.scan .hour (none : Option (Key .activity)) (fun _ => true)
      (fun _ => true) .epoch .epoch = .ok less ∧ less.rows.size = 1) ∧
    strayFront.scan .hour (none : Option (Key .activity)) (fun _ => true) (fun _ => true) .epoch
      .epoch = .error (.badKey (.segments 2 "/watchactivity/!")) := by
  have hrun : (strayFront.legible.scan .hour (none : Option (Key .activity)) (fun _ => true)
      (fun _ => true) .epoch .epoch).toOption.map (fun less => less.rows.size) = some 1 := by
    decide +kernel
  have hbounds : strayFront.tableBounds .activity =
      .error (.badKey (.segments 2 "/watchactivity/!")) := by
    decide +kernel
  obtain ⟨less, hless, hsize⟩ := Option.map_eq_some_iff.mp hrun
  refine ⟨⟨less, eq_ok_of_toOption hless, hsize⟩, ?_⟩
  rw [scan, hbounds]
  rfl

end WatchHistory.Store
