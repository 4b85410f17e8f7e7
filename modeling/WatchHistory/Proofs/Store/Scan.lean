import Mathlib.Data.List.Dedup
import WatchHistory.Proofs.SortedMap
import WatchHistory.Proofs.Store.Filled
import WatchHistory.Proofs.Store.Partitions
import WatchHistory.Store.Scan

/-!
# What a scan finds

A scan clamps its span to the bounds of the table, lists the partitions between them, seeks a range
of texts in each and tests every text in it. What it finds is what a filter over all rows of the
store finds (`scan_eq_filter`):

* `Scan.foldl_visit`: the counts of a scan are those of the rows of its partitions one after the
  other.
* `Store.exists_listed`: the partitions that are listed are those in the span, as far as they hold a
  row.
* `Store.mem_covered`: the rows that are seen in a partition are those that have the fields of the
  stem.
-/

set_option autoImplicit false

namespace WatchHistory

open WatchHistory.Partition

/-! ## Counting partition by partition -/

namespace Scan

variable {t : Table} {row : t.Row → Bool}

/-- The key and the row of a stored text, where both can be read and the row passes the test. -/
def pair? (row : t.Row → Bool) (r : String × String) : Option (Key t × t.Row) :=
  match Key.parse t r.1, t.read? r.2 with
  | .ok k, some v => if row v then some (k, v) else none
  | _, _ => none

theorem pair?_eq_some_iff {r : String × String} {k : Key t} {v : t.Row} :
    pair? row r = some (k, v) ↔
      Key.parse t r.1 = .ok k ∧ t.read? r.2 = some v ∧ row v = true := by
  unfold pair?
  cases Key.parse t r.1 with
  | error e => simp
  | ok k' =>
    cases t.read? r.2 with
    | none => simp
    | some v' =>
      by_cases hrow : row v' = true
      · simp only [hrow, if_true, Option.some.injEq, Prod.mk.injEq, Except.ok.injEq]
        constructor
        · rintro ⟨rfl, rfl⟩
          exact ⟨rfl, rfl, hrow⟩
        · rintro ⟨rfl, rfl, -⟩
          exact ⟨rfl, rfl⟩
      · simp only [hrow, Except.ok.injEq, Option.some.injEq]
        simp only [Bool.false_eq_true, if_false, reduceCtorEq, false_iff]
        rintro ⟨-, rfl, h⟩
        exact hrow h

/-- A scan over the rows of several partitions counts them as if they were those of one, apart from
the partitions themselves. -/
theorem foldl_visit (seen : String → List (String × String)) (key : String → Bool)
    (ps : List String) (scan : Scan t) :
    ps.foldl (fun found p => found.visit (seen p) key row) scan =
      { rows := (((ps.flatMap seen).filter fun r => key r.1).filterMap (pair? row)).foldl
          (fun m e => m.insert e.1 e.2) scan.rows
        partitions := scan.partitions + (ps.filter fun p => !(seen p).isEmpty).length
        visited := scan.visited + (ps.flatMap seen).length
        passedKey := scan.passedKey + ((ps.flatMap seen).filter fun r => key r.1).length
        passedRow := scan.passedRow +
          (((ps.flatMap seen).filter fun r => key r.1).filterMap (pair? row)).length } := by
  induction ps generalizing scan with
  | nil => rfl
  | cons p ps ih =>
    have hvisit : scan.visit (seen p) key row =
        { rows := (((seen p).filter fun r => key r.1).filterMap (pair? row)).foldl
            (fun m e => m.insert e.1 e.2) scan.rows
          partitions := scan.partitions + if (seen p).isEmpty then 0 else 1
          visited := scan.visited + (seen p).length
          passedKey := scan.passedKey + ((seen p).filter fun r => key r.1).length
          passedRow := scan.passedRow +
            (((seen p).filter fun r => key r.1).filterMap (pair? row)).length } := rfl
    have hpartitions : ((p :: ps).filter fun p => !(seen p).isEmpty).length =
        (if (seen p).isEmpty then 0 else 1) + (ps.filter fun p => !(seen p).isEmpty).length := by
      cases hempty : (seen p).isEmpty <;> simp [hempty, Nat.add_comm]
    rw [List.foldl_cons, ih, hvisit, hpartitions]
    simp only [List.flatMap_cons, List.filter_append, List.filterMap_append, List.foldl_append,
      List.length_append, Nat.add_assoc]

end Scan

namespace Store

variable {g : Granularity} {t : Table} {s : Store}

/-! ## The partitions of a span -/

theorem latest_idAt {a b : Int} (ha : InRange a) (hb : InRange b) :
    latest (idAt a) (idAt b) = idAt (max a b) := by
  unfold latest
  simp only [idAt_lt_idAt_iff ha hb]
  split
  · rw [Int.max_eq_right (by omega)]
  · rw [Int.max_eq_left (by omega)]

theorem earliest_idAt {a b : Int} (ha : InRange a) (hb : InRange b) :
    earliest (idAt a) (idAt b) = idAt (min a b) := by
  unfold earliest
  simp only [idAt_lt_idAt_iff hb ha]
  split
  · rw [Int.min_eq_right (by omega)]
  · rw [Int.min_eq_left (by omega)]

theorem scan_of_between {stem : Option (Key t)} {key : String → Bool} {row : t.Row → Bool}
    {start stop : Instant} {min max : String} {ids : List String}
    (hb : s.tableBounds t = .ok (some (min, max)))
    (hids : g.between (latest (g.partitionOf start) min) (earliest (g.partitionOf stop) max) =
      .ok ids) :
    s.scan g stem key row start stop =
      .ok (ids.foldl (fun found p => found.visit (s.covered t p stem) key row) .empty) := by
  unfold scan
  rw [hb]
  dsimp only [bind, Except.bind]
  rw [hids]
  rfl

theorem exists_listed {admits : String → Prop} (hs : s.Filled g admits) (stem : Option (Key t))
    (key : String → Bool) (row : t.Row → Bool) {start stop : Instant}
    (hstart : InRange start.seconds) (hstop : InRange stop.seconds) :
    ∃ ids : List String, s.scan g stem key row start stop =
        .ok (ids.foldl (fun found p => found.visit (s.covered t p stem) key row) .empty) ∧
      (ids.Pairwise fun a b => a < b) ∧ (∀ p ∈ ids, ∃ second, p = idAt second) ∧
      ∀ p, s.Holds t p → (p ∈ ids ↔ ¬ p < g.partitionOf start ∧ ¬ g.partitionOf stop < p) := by
  obtain ⟨b, hb, hspans⟩ := tableBounds_spec hs.keyed t
  cases b with
  | none =>
    refine ⟨[], ?_, .nil, nofun, fun p hp => absurd hp (hspans p)⟩
    unfold scan
    rw [hb]
    rfl
  | some bounds =>
    obtain ⟨min, max⟩ := bounds
    obtain ⟨hmin, hmax, hall⟩ := hspans
    obtain ⟨a, rfl, ha, had, -⟩ := hs.grid hmin
    obtain ⟨z, rfl, hz, hzd, hnext⟩ := hs.grid hmax
    have hfirst := g.inRange_floor hstart
    have hlast := g.inRange_floor hstop
    have hpos := g.seconds_pos
    have hfrom := hfirst.max ha
    have hto := hlast.min hz
    have hfromdvd : g.seconds ∣ Max.max (g.floor start.seconds) a := by
      rcases max_choice (g.floor start.seconds) a with h | h <;> rw [h]
      · exact g.dvd_floor _
      · exact had
    have htodvd : g.seconds ∣ Min.min (g.floor stop.seconds) z := by
      rcases min_choice (g.floor stop.seconds) z with h | h <;> rw [h]
      · exact g.dvd_floor _
      · exact hzd
    have htonext : InRange (Min.min (g.floor stop.seconds) z + g.seconds) := by
      have hto₀ := hto.1
      have hnext₁ := hnext.2
      exact ⟨by omega, by omega⟩
    obtain ⟨ids, hids, hsorted, hmem⟩ := g.between_eq hfrom hfromdvd hto htodvd htonext
    refine ⟨ids, ?_, hsorted, fun p hp => ?_, fun p hp => ?_⟩
    · refine scan_of_between hb ?_
      unfold Granularity.partitionOf
      rw [latest_idAt hfirst ha, earliest_idAt hlast hz, hids]
    · obtain ⟨second, hid, -⟩ := (hmem p).mp hp
      exact ⟨second, hid⟩
    · obtain ⟨second, rfl, hrange, hdvd, -⟩ := hs.grid hp
      obtain ⟨hafter, hbefore⟩ := hall _ hp
      rw [idAt_lt_idAt_iff hrange ha] at hafter
      rw [idAt_lt_idAt_iff hz hrange] at hbefore
      unfold Granularity.partitionOf
      rw [hmem, idAt_lt_idAt_iff hrange hfirst, idAt_lt_idAt_iff hlast hrange]
      constructor
      · rintro ⟨second', hid, -, hge, hle⟩
        have hrange' : InRange second' :=
          ⟨Int.le_trans hfrom.1 hge, Int.lt_of_le_of_lt hle hto.2⟩
        obtain rfl := idAt_injective hrange hrange' hid
        omega
      · intro hspan
        exact ⟨second, rfl, hdvd, by omega, by omega⟩

/-! ## The rows of a partition -/

theorem covers_partitionStem {p text : String} {k : Key t} (hk : Key.parse t text = .ok k)
    (hp : k.partition = p) : Key.covers (t.partitionStem p) text = true := by
  obtain ⟨rest, hrest⟩ := Key.exists_append_of_parse hk
  have hend : (t.partitionStem p).toList.getLast? = some '/' := by
    rw [Key.toList_partitionStem, List.getLast?_concat]
  rw [hp] at hrest
  exact Key.covers_iff_append.mpr ⟨_, hrest, .inl hend⟩

/-- The rows that a scan sees in a partition are the ones of it that have the fields of the stem. -/
theorem mem_covered (hs : s.Filled g fun kind => Text.Plain kind.toList) {stem : Option (Key t)}
    (hstem : ∀ c ∈ stem, c.Comparable) (second : Int) {key text : String} :
    (key, text) ∈ s.covered t (idAt second) stem ↔ s.get? key = some text ∧
      ∃ k, Key.parse t key = .ok k ∧ k.partition = idAt second ∧ ∀ c ∈ stem, c.Agrees k := by
  have hslash := slash_notMem_idAt second
  have hne : (idAt second).toList ≠ [] := (ranked_idAt second).1
  cases stem with
  | none =>
    simp only [covered, List.mem_filter, mem_under, Option.not_mem_none, false_implies,
      implies_true, and_true, and_assoc]
    apply and_congr_right
    intro hrow
    constructor
    · rintro ⟨hafter, hbefore, -⟩
      obtain ⟨u, k, _, hk⟩ := hs.exists_gridded hrow
      obtain ⟨rfl, hp⟩ := Filed.eq_of_mem_range_partitionStem ⟨k, hk.spells.parse, rfl⟩ hslash
        ⟨hafter, hbefore⟩
      exact ⟨k, hk.spells.parse, hp⟩
    · rintro ⟨k, hk, hp⟩
      obtain ⟨hafter, hbefore⟩ := (Filed.mem_range_partitionStem_iff hk
        (hs.plain_kind hrow hk) hslash).mpr ⟨rfl, hp⟩
      exact ⟨hafter, hbefore, covers_partitionStem hk hp⟩
  | some c =>
    have hc : c.Comparable := hstem c rfl
    simp only [covered, List.mem_filter, mem_under, Option.mem_def, Option.some.injEq, forall_eq',
      and_assoc]
    apply and_congr_right
    intro hrow
    obtain ⟨u, k', _, hk'⟩ := hs.exists_gridded hrow
    have htext : ∃ (u : Table) (k : Key u), Key.Spells key k := ⟨u, k', hk'.spells⟩
    constructor
    · rintro ⟨-, -, hcovers⟩
      obtain ⟨k, hk, hp, hagrees⟩ := (Key.covers_retarget_iff htext hc hne hslash).mp hcovers
      exact ⟨k, hk.parse, hp, hagrees⟩
    · rintro ⟨k, hk, hp, hagrees⟩
      obtain ⟨_, hgridded⟩ := hs.gridded hrow hk
      have hcovers : Key.covers (c.retarget (idAt second)).render key = true :=
        (Key.covers_retarget_iff htext hc hne hslash).mpr ⟨k, hgridded.spells, hp, hagrees⟩
      obtain ⟨hafter, hbefore⟩ := Key.mem_range_of_covers_retarget hc hslash hcovers
      exact ⟨hafter, hbefore, hcovers⟩

/-! ## All rows -/

/-- The rows of a table in the partitions from one to another, narrowed by a stem. -/
def spanned (s : Store) (stem : Option (Key t)) (first last : String) : List (String × String) :=
  s.rows.entries.filter fun r =>
    match Key.parse t r.1 with
    | .ok k => ¬ k.partition < first ∧ ¬ last < k.partition ∧ stem.all fun c => c.Agrees k
    | .error _ => false

theorem mem_spanned {stem : Option (Key t)} {first last key text : String} :
    (key, text) ∈ s.spanned stem first last ↔ s.get? key = some text ∧
      ∃ k, Key.parse t key = .ok k ∧ ¬ k.partition < first ∧ ¬ last < k.partition ∧
        ∀ c ∈ stem, c.Agrees k := by
  unfold spanned
  rw [List.mem_filter, SortedMap.mem_iff_get?]
  refine and_congr_right fun _ => ?_
  cases Key.parse t key with
  | error e => simp
  | ok k => cases stem <;> simp

theorem pairwise_spanned (s : Store) (stem : Option (Key t)) (first last : String) :
    (s.spanned stem first last).Pairwise fun a b => a.1 < b.1 :=
  s.rows.ascending.filter _

/-- The rows that a scan sees, partition by partition, are those that a filter over the whole store
finds, in the same order. -/
theorem flatMap_covered (hs : s.Filled g fun kind => Text.Plain kind.toList)
    {stem : Option (Key t)} (hstem : ∀ c ∈ stem, c.Comparable) {ids : List String}
    {first last : String} (hsorted : ids.Pairwise fun a b => a < b)
    (hids : ∀ p ∈ ids, ∃ second, p = idAt second)
    (hmem : ∀ p, s.Holds t p → (p ∈ ids ↔ ¬ p < first ∧ ¬ last < p)) :
    ids.flatMap (s.covered t · stem) = s.spanned stem first last := by
  refine SortedMap.entries_eq_of_mem ?_ (s.pairwise_spanned stem first last) fun ⟨key, text⟩ => ?_
  · refine List.pairwise_flatMap.mpr ⟨fun p _ => (s.pairwise_between _ _).filter _,
      hsorted.imp_of_mem fun {p q} hp hq hlt => ?_⟩
    rintro ⟨key, text⟩ hkey ⟨key', text'⟩ hkey'
    obtain ⟨a, rfl⟩ := hids p hp
    obtain ⟨b, rfl⟩ := hids q hq
    obtain ⟨-, k, hk, hka, -⟩ := (mem_covered hs hstem a).mp hkey
    obtain ⟨-, k', hk', hkb, -⟩ := (mem_covered hs hstem b).mp hkey'
    exact Decidable.byContradiction fun hnot =>
      Filed.not_lt_of_not_lt ⟨k', hk', hkb⟩ ⟨k, hk, hka⟩ hnot hlt
  · rw [List.mem_flatMap, mem_spanned]
    constructor
    · rintro ⟨p, hp, hcovered⟩
      obtain ⟨second, rfl⟩ := hids p hp
      obtain ⟨hrow, k, hk, hkp, hagrees⟩ := (mem_covered hs hstem second).mp hcovered
      obtain ⟨hfirst, hlast⟩ := (hmem _ ⟨key, text, hrow, k, hk, hkp⟩).mp hp
      exact ⟨hrow, k, hk, hkp ▸ hfirst, hkp ▸ hlast, hagrees⟩
    · rintro ⟨hrow, k, hk, hfirst, hlast, hagrees⟩
      have hp := (hmem _ ⟨key, text, hrow, k, hk, rfl⟩).mpr ⟨hfirst, hlast⟩
      obtain ⟨second, hid⟩ := hids _ hp
      exact ⟨k.partition, hp, by
        rw [hid]
        exact (mem_covered hs hstem second).mpr ⟨hrow, k, hk, hid, hagrees⟩⟩

theorem length_touched (hs : s.Filled g fun kind => Text.Plain kind.toList)
    {stem : Option (Key t)} (hstem : ∀ c ∈ stem, c.Comparable) {ids : List String}
    (hsorted : ids.Pairwise fun a b => a < b) (hids : ∀ p ∈ ids, ∃ second, p = idAt second) :
    (ids.filter fun p => !(s.covered t p stem).isEmpty).length =
      ((ids.flatMap (s.covered t · stem)).filterMap fun r => partitionOf? r.1).dedup.length := by
  refine ((List.perm_ext_iff_of_nodup ?_ (List.nodup_dedup _)).mpr fun p => ?_).length_eq
  · refine List.Nodup.filter _ (hsorted.imp fun {p q} hlt => ?_)
    rintro rfl
    exact String.lt_irrefl p hlt
  · rw [List.mem_dedup, List.mem_filter, List.mem_filterMap]
    constructor
    · rintro ⟨hp, hnonempty⟩
      obtain ⟨⟨key, text⟩, rest, hcovered⟩ :=
        List.exists_cons_of_ne_nil (show s.covered t p stem ≠ [] by simpa using hnonempty)
      have hmem : (key, text) ∈ s.covered t p stem := hcovered ▸ List.mem_cons_self
      refine ⟨(key, text), List.mem_flatMap.mpr ⟨p, hp, hmem⟩, ?_⟩
      obtain ⟨second, rfl⟩ := hids p hp
      obtain ⟨-, k, hk, hkp, -⟩ := (mem_covered hs hstem second).mp hmem
      exact partitionOf?_eq_some_iff.mpr ⟨t, k, hk, hkp⟩
    · rintro ⟨⟨key, text⟩, hmem, hpartition⟩
      obtain ⟨q, hq, hcovered⟩ := List.mem_flatMap.mp hmem
      obtain ⟨second, rfl⟩ := hids q hq
      obtain ⟨-, k, hk, hkp, -⟩ := (mem_covered hs hstem second).mp hcovered
      obtain ⟨u, hfiled⟩ := partitionOf?_eq_some_iff.mp hpartition
      obtain ⟨-, rfl⟩ := Filed.unique hfiled ⟨k, hk, hkp⟩
      refine ⟨hq, ?_⟩
      cases hrows : s.covered t (idAt second) stem with
      | nil => rw [hrows] at hcovered; cases hcovered
      | cons r rows => rfl

theorem nodup_pairs {admits : String → Prop} (hs : s.Filled g admits) (row : t.Row → Bool)
    {rows : List (String × String)} (hsorted : rows.Pairwise fun a b => a.1 < b.1)
    (hrows : ∀ r ∈ rows, s.get? r.1 = some r.2) :
    ((rows.filterMap (Scan.pair? row)).map Prod.fst).Nodup := by
  rw [List.map_filterMap]
  have hpairwise : rows.Pairwise fun r r' => r ∈ rows ∧ r' ∈ rows ∧ r.1 < r'.1 :=
    hsorted.imp_of_mem fun hr hr' hlt => ⟨hr, hr', hlt⟩
  refine hpairwise.filterMap _ fun r r' ⟨hr, hr', hlt⟩ k hk k' hk' => ?_
  obtain ⟨⟨k, v⟩, hpair, rfl⟩ := Option.map_eq_some_iff.mp hk
  obtain ⟨⟨k', v'⟩, hpair', rfl⟩ := Option.map_eq_some_iff.mp hk'
  rintro ⟨rfl⟩
  have hsame := hs.eq_of_parse (hrows r hr) (hrows r' hr') (Scan.pair?_eq_some_iff.mp hpair).1
    (Scan.pair?_eq_some_iff.mp hpair').1
  exact String.lt_irrefl _ (hsame ▸ hlt)

/-- **A scan finds what a filter over all rows finds**: the rows of the table in the span that have
the fields of the stem are visited, those of them whose keys and then whose rows pass the tests are
found, each under the key that is read of it, and the counts are those of the successive filters. -/
theorem scan_eq_filter (g : Granularity) {s : Store}
    (hs : s.Filled g fun kind => Text.Plain kind.toList) {t : Table} (stem : Option (Key t))
    (hstem : ∀ c ∈ stem, c.Comparable) (key : String → Bool) (row : t.Row → Bool)
    (start stop : Instant) (hstart : 0 ≤ start.seconds ∧ start.seconds < 253402300800)
    (hstop : 0 ≤ stop.seconds ∧ stop.seconds < 253402300800) :
    let visited := s.spanned stem (g.partitionOf start) (g.partitionOf stop)
    let keyed := visited.filter fun r => key r.1
    let passed := keyed.filterMap (Scan.pair? row)
    ∃ found, s.scan g stem key row start stop = .ok found ∧
      (∀ k v, found.rows.get? k = some v ↔ (k, v) ∈ passed) ∧
      found.visited = visited.length ∧ found.passedKey = keyed.length ∧
      found.passedRow = passed.length ∧ found.rows.size = passed.length ∧
      found.partitions = (visited.filterMap fun r => partitionOf? r.1).dedup.length := by
  dsimp only
  have hfirst : InRange start.seconds := ⟨hstart.1, by unfold idLimit; omega⟩
  have hlast : InRange stop.seconds := ⟨hstop.1, by unfold idLimit; omega⟩
  obtain ⟨ids, hscan, hsorted, hids, hmem⟩ := exists_listed hs stem key row hfirst hlast
  have hvisited := flatMap_covered hs hstem hsorted hids hmem
  have hnodup := nodup_pairs hs row
    ((s.pairwise_spanned stem (g.partitionOf start) (g.partitionOf stop)).filter
      fun r => key r.1) fun r hr => (mem_spanned.mp (List.mem_filter.mp hr).1).1
  have hperm := SortedMap.perm_entries_ofList hnodup
  rw [Scan.foldl_visit, length_touched hs hstem hsorted hids, hvisited] at hscan
  refine ⟨_, hscan, fun k v => ?_, Nat.zero_add _, Nat.zero_add _, Nat.zero_add _,
    hperm.length_eq, Nat.zero_add _⟩
  rw [← SortedMap.mem_iff_get?]
  exact hperm.mem_iff

/-- A pod and another one whose name goes on where that of the first one ends. -/
def siblings : Except StoreError Store := do
  let s ← Store.empty.set (Key.within .day .activity .epoch "Pod" "default" "web" "u1")
    ⟨[], [0]⟩
  s.set (Key.within .day .activity .epoch "Pod" "default" "web-2" "u2") ⟨[], [0]⟩

/-- The stem of the first pod of `siblings`. -/
def webStem : Key .activity := .comparator .activity "Pod" "default" "web" ""

theorem scan_passes_over_sibling :
    ∃ s found, siblings = .ok s ∧ s.rows.size = 2 ∧
      (s.Filled .day fun kind => Text.Plain kind.toList) ∧ (∀ c ∈ some webStem, c.Comparable) ∧
      s.scan .day (some webStem) (fun _ => true) (fun _ => true) .epoch .epoch = .ok found ∧
      found.visited = 1 ∧ found.passedRow = 1 ∧ found.rows.size = 1 ∧ found.partitions = 1 := by
  obtain ⟨s₁, h₁⟩ : ∃ s₁, Store.empty.set
      (Key.within .day .activity .epoch "Pod" "default" "web" "u1") ⟨[], [0]⟩ = .ok s₁ := ⟨_, rfl⟩
  obtain ⟨s, hs⟩ : ∃ s, s₁.set
      (Key.within .day .activity .epoch "Pod" "default" "web-2" "u2") ⟨[], [0]⟩ = .ok s := ⟨_, rfl⟩
  have htwo : siblings = .ok s := by rw [← hs, siblings, h₁]; rfl
  have hplain : Text.Plain "Pod".toList := Text.plain_cons (by decide) _
  have hfilled : s.Filled .day fun kind => Text.Plain kind.toList :=
    ((filled_empty .day _).set (by decide) (by trivial) hplain h₁).set (by decide) (by trivial)
      hplain hs
  have hstem : ∀ c ∈ some webStem, c.Comparable := fun c hc => Option.some.inj hc ▸
    ⟨by decide, by decide, by decide, by decide, trivial⟩
  obtain ⟨found, hfound, -, hvisited, -, hpassed, hsize, hpartitions⟩ :=
    scan_eq_filter .day hfilled (some webStem) hstem (fun _ => true) (fun _ => true) .epoch .epoch
      (by decide) (by decide)
  have hrun : siblings.toOption.map (fun s =>
      let rows := s.spanned (some webStem) "000000000000" "000000000000"
      (s.rows.size, rows.length,
        ((rows.filter fun _ => true).filterMap (Scan.pair? (t := .activity) fun _ => true)).length,
        (rows.filterMap fun r => partitionOf? r.1).dedup.length)) = some (2, 1, 1, 1) := by
    decide +kernel
  rw [htwo] at hrun
  simp only [Except.toOption, Option.map_some, Option.some.injEq, Prod.mk.injEq] at hrun
  obtain ⟨htotal, hrows, hpairs, hcount⟩ := hrun
  exact ⟨s, found, htwo, htotal, hfilled, hstem, hfound, hvisited.trans hrows,
    hpassed.trans hpairs, hsize.trans hpairs, hpartitions.trans hcount⟩

end Store

end WatchHistory
