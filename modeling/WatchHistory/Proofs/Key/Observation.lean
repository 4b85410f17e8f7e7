import WatchHistory.Proofs.Key.Codec
import WatchHistory.Proofs.Store.Previous

/-!
# Keys of observations

The last segment of an observation's key is its time in nanoseconds, so a time is only ever read
back if its nanoseconds fit into 64 bits (`fits_of_readLast?`). The times of nineteen digits
(`Instant.Timely`) are read back (`parse_observation`), and among them the keys of one object in one
partition are ordered as the times are (`observation_lt_observation_iff`).
-/

set_option autoImplicit false

namespace WatchHistory

/-! ## Numbers of nanoseconds -/

namespace Decimal

theorem isDigit_of_int? {cs : List Char} {i : Int} (h : int? cs = some i) {c : Char} (hc : c ∈ cs) :
    c = '+' ∨ c = '-' ∨ c.isDigit = true := by
  obtain ⟨hnumber, -⟩ := Option.filter_eq_some_iff.mp h
  split at hnumber
  · obtain ⟨n, hn, -⟩ := Option.map_eq_some_iff.mp hnumber
    rcases List.mem_cons.mp hc with hc | hc
    · exact .inl hc
    · exact .inr (.inr ((nat?_eq_some_iff.mp hn).2.1 c hc))
  · obtain ⟨n, hn, -⟩ := Option.map_eq_some_iff.mp hnumber
    rcases List.mem_cons.mp hc with hc | hc
    · exact .inr (.inl hc)
    · exact .inr (.inr ((nat?_eq_some_iff.mp hn).2.1 c hc))
  · obtain ⟨n, hn, -⟩ := Option.map_eq_some_iff.mp hnumber
    exact .inr (.inr ((nat?_eq_some_iff.mp hn).2.1 c hc))

theorem int?_ofInt {i : Int} (h : fits i = true) : int? (ofInt i) = some i := by
  have hdigit : ∀ n : Nat, ∀ c ∈ ofNat n, c ≠ '+' ∧ c ≠ '-' := by
    intro n c hc
    have := isDigit_of_mem_ofNat hc
    constructor <;> rintro rfl <;> exact absurd this (by decide)
  unfold int? ofInt
  rw [Option.filter_eq_some_iff]
  refine ⟨?_, h⟩
  by_cases hi : i < 0
  · simp only [hi, if_true, nat?_ofNat, Option.map_some, Int.ofNat_eq_natCast, Option.some.injEq]
    omega
  · simp only [hi, if_false]
    split
    · next rest hrest => exact absurd rfl (hdigit _ '+' (hrest ▸ List.mem_cons_self)).1
    · next rest hrest => exact absurd rfl (hdigit _ '-' (hrest ▸ List.mem_cons_self)).2
    · simp only [nat?_ofNat, Option.map_some, Int.ofNat_eq_natCast, Option.some.injEq]
      omega

end Decimal

theorem Instant.ofNanos?_totalNanos {t : Instant} (h : t.nanos < billion) :
    ofNanos? t.totalNanos = some t := by
  have hnanos : t.nanos < 1000000000 := h
  have hdiv : t.totalNanos / 1000000000 = t.seconds := by unfold totalNanos; omega
  have hmod : (t.totalNanos % 1000000000).toNat = t.nanos := by unfold totalNanos; omega
  rw [ofNanos?, hdiv, hmod, of?_seconds_nanos]

theorem Rfc3339.mem_write (zone : List Char) (t : Instant) : 'T' ∈ Rfc3339.write zone t := by
  simp [Rfc3339.write]

namespace Key

theorem fits_of_readLast? {time : Instant} {last : Option Instant}
    (h : readLast? .watch (instantText time) = some last) :
    Decimal.fits time.totalNanos = true := by
  apply Decidable.byContradiction
  intro hfits
  unfold instantText at h
  rw [if_neg hfits] at h
  obtain ⟨t, hread, -⟩ := Option.map_eq_some_iff.mp h
  obtain ⟨n, hn, -⟩ := Option.bind_eq_some_iff.mp hread
  rcases Decimal.isDigit_of_int? hn (Rfc3339.mem_write _ time) with h | h | h <;>
    exact absurd h (by decide)

theorem instantText_ne_nil (time : Instant) : instantText time ≠ [] := by
  unfold instantText
  split
  · unfold Decimal.ofInt
    split
    · simp
    · exact Decimal.ofNat_ne_nil _
  · exact List.ne_nil_of_mem (Rfc3339.mem_write _ time)

theorem readLast?_instantText {time : Instant} (hfits : Decimal.fits time.totalNanos = true)
    (hregular : time.nanos < billion) :
    readLast? .watch (instantText time) = some (some time) := by
  rw [instantText, if_pos hfits]
  simp [readLast?, Decimal.int?_ofInt hfits, Instant.ofNanos?_totalNanos hregular]

theorem seconds_le_of_fits {time : Instant} (h : Decimal.fits time.totalNanos = true) :
    time.seconds ≤ 9223372036 := by
  have hle : time.totalNanos ≤ 9223372036854775807 :=
    (Decimal.fits_iff.mp h).2
  unfold Instant.totalNanos at hle
  omega

end Key

/-! ## Times of nineteen digits -/

/-- Whether an instant is no leap second and its nanoseconds have nineteen digits and 64 bits. -/
structure Instant.Timely (t : Instant) : Prop where
  first : 1000000000 ≤ t.seconds
  last : t.totalNanos ≤ Decimal.greatest
  regular : t.nanos < billion

namespace Instant

theorem lt_iff_totalNanos_lt {a b : Instant} (ha : a.nanos < billion) (hb : b.nanos < billion) :
    a < b ↔ a.totalNanos < b.totalNanos := by
  unfold billion at ha hb
  rw [lt_iff]
  unfold totalNanos
  omega

namespace Timely

variable {t : Instant}

theorem fits (h : t.Timely) : Decimal.fits t.totalNanos = true := by
  have hfirst := h.first
  refine Decimal.fits_iff.mpr ⟨?_, h.last⟩
  unfold Decimal.least totalNanos
  omega

theorem instantText_eq (h : t.Timely) :
    Key.instantText t = Decimal.ofNat t.totalNanos.toNat := by
  have hfirst := h.first
  have hpos : ¬ t.totalNanos < 0 := by unfold totalNanos; omega
  rw [Key.instantText, if_pos h.fits, Decimal.ofInt, if_neg hpos]
  congr 1
  omega

theorem length_instantText (h : t.Timely) : (Key.instantText t).length = 19 := by
  have hfirst := h.first
  have hlast := h.last
  unfold Decimal.greatest at hlast
  have hge : 10 ^ 18 ≤ t.totalNanos.toNat := by unfold totalNanos; omega
  have hlt : t.totalNanos.toNat < 10 ^ 19 := by omega
  have hle := (Nat.length_toDigits_le_iff (b := 10) (k := 19) (by decide) (by decide)).mpr hlt
  have hgt := mt (Nat.length_toDigits_le_iff (b := 10) (k := 18) (by decide) (by decide)).mp
    (Nat.not_lt.mpr hge)
  rw [h.instantText_eq, Decimal.ofNat]
  omega

theorem isDigit_of_mem_instantText (h : t.Timely) {c : Char} (hc : c ∈ Key.instantText t) :
    c.isDigit = true := by
  rw [h.instantText_eq] at hc
  exact Decimal.isDigit_of_mem_ofNat hc

theorem instantText_lt_iff {u : Instant} (h : t.Timely) (h' : u.Timely) :
    Key.instantText t < Key.instantText u ↔ t < u := by
  have hfirst := h.first
  have hfirst' := h'.first
  rw [lt_iff_totalNanos_lt h.regular h'.regular,
    Decimal.lt_iff_value_lt (h.length_instantText.trans h'.length_instantText.symm)
      (fun c hc => h.isDigit_of_mem_instantText hc) (fun c hc => h'.isDigit_of_mem_instantText hc),
    h.instantText_eq, h'.instantText_eq, Decimal.value_ofNat, Decimal.value_ofNat]
  unfold totalNanos
  omega

theorem inRange (h : t.Timely) (g : Granularity) :
    Partition.InRange (g.floor t.seconds) ∧
      Partition.InRange (g.floor t.seconds + g.seconds) := by
  have hfirst := h.first
  have hlast := Key.seconds_le_of_fits h.fits
  have hfloor := g.floor_le t.seconds
  have hzero := g.le_floor (m := 0) (Int.dvd_zero _) (show 0 ≤ t.seconds by omega)
  have hpos := g.seconds_pos
  have hle := g.seconds_le
  unfold Partition.InRange Partition.idLimit
  omega

end Timely

end Instant

/-! ## Keys -/

namespace Key

variable {g : Granularity} {kind ns name : String} {t u : Instant}

theorem toList_render_observation (h : Searchable kind ns name) :
    (observation g kind ns name t).render.toList =
      (stemOf (g.partitionOf t) kind ns name).render.toList ++ '/' :: instantText t := by
  have hne : (g.partitionOf t).toList ≠ [] := (Partition.ranked_idAt (g.floor t.seconds)).1
  have hlast : lastText .watch (observation g kind ns name t).last ≠ [] := instantText_ne_nil t
  rw [toList_render, dropEmptyEnd_fields hlast, toList_render_stemOf h hne]
  simp [slashed, fields, observation, within, lastText]

/-- If the key of an observation is read, its time fits, and its fields hold no slash and are read
as they are. -/
theorem of_parse_observation {k : Key .watch}
    (h : parse .watch (observation g kind ns name t).render = .ok k) :
    Decimal.fits t.totalNanos = true ∧ k.kind = kind ∧ k.ns = ns ∧ k.name = name := by
  have hlast : lastText .watch (observation g kind ns name t).last ≠ [] := instantText_ne_nil t
  obtain ⟨-, -, hkind, hns, hname, hread⟩ := fields_of_parse_render hlast h
  exact ⟨fits_of_readLast? hread, hkind, hns, hname⟩

theorem parse_observation (h : Searchable kind ns name) (ht : t.Timely) :
    parse .watch (observation g kind ns name t).render = .ok (observation g kind ns name t) := by
  refine parse_render ?_ (instantText_ne_nil t) (readLast?_instantText ht.fits ht.regular)
  have hpartition : '/' ∉ (g.partitionOf t).toList :=
    Partition.slash_notMem_idAt (g.floor t.seconds)
  have hlast : '/' ∉ instantText t := fun hc =>
    absurd (ht.isDigit_of_mem_instantText hc) (by decide)
  simp only [fields, List.mem_cons, List.not_mem_nil, or_false, forall_eq_or_imp, forall_eq]
  exact ⟨hpartition, h.slash_kind, h.slash_ns, h.slash_name, hlast⟩

theorem observes_observation (h : Searchable kind ns name) (ht : t.Timely) :
    Observes kind ns name (observation g kind ns name t).render (observation g kind ns name t) :=
  ⟨parse_observation h ht, rfl, rfl, rfl⟩

/-- The keys of an object's observations in one partition are ordered as the texts of the times. -/
theorem observation_lt_iff (h : Searchable kind ns name)
    (hp : g.partitionOf t = g.partitionOf u) :
    (observation g kind ns name t).render < (observation g kind ns name u).render ↔
      instantText t < instantText u := by
  rw [String.lt_iff, toList_render_observation h, toList_render_observation h, hp,
    Text.append_lt_append_left, List.cons_lt_cons_self]

/-- The keys of an object's observations in one partition are ordered as the times are, if these are
`Timely`. -/
theorem observation_lt_observation_iff (h : Searchable kind ns name) (ht : t.Timely)
    (hu : u.Timely) (hp : g.partitionOf t = g.partitionOf u) :
    (observation g kind ns name t).render < (observation g kind ns name u).render ↔ t < u := by
  rw [observation_lt_iff h hp, ht.instantText_lt_iff hu]

end Key

end WatchHistory
