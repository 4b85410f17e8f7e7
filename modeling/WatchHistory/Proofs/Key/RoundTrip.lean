import WatchHistory.Proofs.Key.Stem
import WatchHistory.Proofs.Row.RoundTrip

/-!
# Which keys are read back

A key is read back from its text exactly if no text among its fields holds a slash and its last
segment is complete (`Table.Complete`).

* `Key.last_ne_noLast_of_parse_render`: a text with an empty last segment is too short to be read,
  unless a slash in another field makes up for the segment that is missing.
* `Key.named_of_parse_render`: without such slashes, whatever is read names the same object.
* `Key.parse_render_iff`: which keys are read back.
-/

set_option autoImplicit false

namespace WatchHistory

/-- Whether the last segment of a key is there and tells all that there is to it: a uid that is not
empty, or an instant that is no leap second and whose nanoseconds have 64 bits. -/
def Table.Complete : (t : Table) → t.Last → Prop
  | .watch, last => ∃ time, last = some time ∧ time.isLeap = false ∧
      Decimal.least ≤ time.totalNanos ∧ time.totalNanos ≤ Decimal.greatest
  | .summary, uid | .eventCount, uid | .activity, uid | .relation, uid => uid ≠ ""

/-- The text in the last segment; an instant is none. -/
def Table.uid? : (t : Table) → t.Last → Option String
  | .watch, _ => none
  | .summary, uid | .eventCount, uid | .activity, uid | .relation, uid => some uid

namespace Key

variable {t : Table} {k k' : Key t}

/-- The texts among the fields of a key. -/
def texts (k : Key t) : List String :=
  [k.partition, k.kind, k.ns, k.name] ++ (t.uid? k.last).toList

/-! ## Texts without a last segment -/

theorem last_ne_noLast_of_parse_render (hp : '/' ∉ k.partition.toList)
    (hkind : '/' ∉ k.kind.toList) (hns : '/' ∉ k.ns.toList) (hname : '/' ∉ k.name.toList)
    (h : parse t k.render = .ok k') : k.last ≠ t.noLast := by
  intro hlast
  have hnil := lastText_eq_nil_iff.mpr hlast
  refine lastText_ne_nil_of_parse_render ?_ h hnil
  simp only [fields, hnil, List.mem_cons, List.not_mem_nil, or_false, forall_eq_or_imp, forall_eq,
    not_false_eq_true, and_true]
  exact ⟨hp, hkind, hns, hname⟩

theorem named_of_parse_render (hp : '/' ∉ k.partition.toList) (hkind : '/' ∉ k.kind.toList)
    (hns : '/' ∉ k.ns.toList) (hname : '/' ∉ k.name.toList) (h : parse t k.render = .ok k') :
    k'.kind = k.kind ∧ k'.ns = k.ns ∧ k'.name = k.name := by
  have hne : lastText t k.last ≠ [] :=
    mt lastText_eq_nil_iff.mp (last_ne_noLast_of_parse_render hp hkind hns hname h)
  obtain ⟨-, -, hkind', hns', hname', -⟩ := fields_of_parse_render hne h
  exact ⟨hkind', hns', hname'⟩

/-! ## Last segments -/

theorem slash_notMem_instantText {time : Instant} (h : Decimal.fits time.totalNanos = true) :
    '/' ∉ instantText time := by
  intro hslash
  rw [instantText, if_pos h] at hslash
  rcases Json.mem_ofInt hslash with h | h <;> exact absurd h (by decide)

/-- The key of an observation is read, if its texts hold no slash and its time fits. In a leap
second another time is read. -/
theorem exists_parse_observation {g : Granularity} {kind ns name : String} {time : Instant}
    (hkind : '/' ∉ kind.toList) (hns : '/' ∉ ns.toList) (hname : '/' ∉ name.toList)
    (hfits : Decimal.fits time.totalNanos = true) :
    ∃ k, parse .watch (observation g kind ns name time).render = .ok k := by
  obtain ⟨u, hu⟩ : ∃ u, Instant.ofNanos? time.totalNanos = some u := by
    obtain ⟨hleast, hgreatest⟩ := Decimal.fits_iff.mp hfits
    unfold Decimal.least at hleast
    unfold Decimal.greatest at hgreatest
    unfold Instant.ofNanos? Instant.of?
    rw [dif_pos ⟨by omega, by omega, fun _ => by omega⟩]
    exact ⟨_, rfl⟩
  have hread : readLast? .watch (instantText time) = some (some u) := by
    rw [instantText, if_pos hfits]
    simp [readLast?, Decimal.int?_ofInt hfits, hu]
  have hslash : ∀ s ∈ fields (observation g kind ns name time), '/' ∉ s := by
    have hpartition : '/' ∉ (g.partitionOf time).toList :=
      Partition.slash_notMem_idAt (g.floor time.seconds)
    simp only [fields, List.mem_cons, List.not_mem_nil, or_false, forall_eq_or_imp, forall_eq]
    exact ⟨hpartition, hkind, hns, hname, slash_notMem_instantText hfits⟩
  exact ⟨_, parse_render_of_readLast? hslash (instantText_ne_nil time) hread⟩

theorem readLast?_lastText_iff {last : t.Last} :
    (lastText t last ≠ [] ∧ readLast? t (lastText t last) = some last) ↔ t.Complete last := by
  cases t with
  | watch =>
    constructor
    · intro h
      obtain ⟨hne, hread⟩ := h
      cases last with
      | none => exact absurd rfl hne
      | some time =>
        have hfits := fits_of_readLast? hread
        obtain ⟨hleast, hgreatest⟩ := Decimal.fits_iff.mp hfits
        obtain ⟨time', htime, hsame⟩ := Option.map_eq_some_iff.mp hread
        obtain rfl : time' = time := Option.some.inj hsame
        obtain ⟨n, -, hn⟩ := Option.bind_eq_some_iff.mp htime
        have hregular := (totalNanos_of_ofNanos? hn).2
        exact ⟨time', rfl, decide_eq_false (Nat.not_le.mpr hregular), hleast, hgreatest⟩
    · intro h
      obtain ⟨time, rfl, hleap, hleast, hgreatest⟩ := h
      have hregular : time.nanos < billion := Nat.not_le.mp (of_decide_eq_false hleap)
      exact ⟨instantText_ne_nil time,
        readLast?_instantText (Decimal.fits_iff.mpr ⟨hleast, hgreatest⟩) hregular⟩
  | summary | eventCount | activity | relation =>
    simp [lastText, readLast?, Table.Complete]

theorem slash_notMem_lastText_iff {last : t.Last} (h : t.Complete last) :
    '/' ∉ lastText t last ↔ ∀ uid ∈ t.uid? last, '/' ∉ uid.toList := by
  cases t with
  | watch =>
    obtain ⟨time, rfl, -, hleast, hgreatest⟩ := h
    exact iff_of_true (slash_notMem_instantText (Decimal.fits_iff.mpr ⟨hleast, hgreatest⟩)) nofun
  | summary | eventCount | activity | relation => simp [lastText, Table.uid?]

/-! ## Keys -/

theorem slash_notMem_fields_iff (h : t.Complete k.last) :
    (∀ s ∈ k.fields, '/' ∉ s) ↔ ∀ text ∈ k.texts, '/' ∉ text.toList := by
  have hlast := slash_notMem_lastText_iff h
  simp only [Option.mem_def] at hlast
  simp [fields, texts, hlast]

/-- **Which keys are read back**: those without a slash in any of their texts, and with a complete
last segment. -/
theorem parse_render_iff {t : Table} (k : Key t) :
    parse t k.render = .ok k ↔
      (∀ text ∈ k.texts, '/' ∉ text.toList) ∧ t.Complete k.last := by
  constructor
  · intro h
    obtain ⟨_, -, -, hp, hkind, hns, hname, -⟩ := exists_slashed_of_parse h
    have hne : lastText t k.last ≠ [] :=
      mt lastText_eq_nil_iff.mp (last_ne_noLast_of_parse_render hp hkind hns hname h)
    obtain ⟨hslash, -, -, -, -, hread⟩ := fields_of_parse_render hne h
    have hcomplete := readLast?_lastText_iff.mp ⟨hne, hread⟩
    exact ⟨(slash_notMem_fields_iff hcomplete).mp hslash, hcomplete⟩
  · intro h
    obtain ⟨hslash, hcomplete⟩ := h
    obtain ⟨hne, hread⟩ := readLast?_lastText_iff.mpr hcomplete
    exact parse_render ((slash_notMem_fields_iff hcomplete).mpr hslash) hne hread

end Key

end WatchHistory
