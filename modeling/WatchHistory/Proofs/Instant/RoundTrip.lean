import WatchHistory.Instant.Rfc3339
import WatchHistory.Proofs.Decimal.Order
import WatchHistory.Proofs.Text.Blank

/-!
# Written instants read back

`readLoosely?_write`: every instant reads back from its written form in UTC, leap seconds and years
outside 0..9999 included.

* `Date.isValid_ofDays`: the calendar has every date that `Date.ofDays` finds.
* `number_digits`: digits are taken up to a character that is none, or up to the greatest length.
* `fraction_fractionText`: the shortest of the four forms of a fraction tells all nanoseconds.
-/

set_option autoImplicit false

namespace WatchHistory

/-! ## Dates that are found -/

namespace Calendar

theorem monthAndDay_mem {lengths : List Nat} {day : Nat}
    (h : day < daysOfMonths lengths lengths.length) :
    ∃ length, lengths[(monthAndDay lengths day).1 - 1]? = some length ∧
      1 ≤ (monthAndDay lengths day).1 ∧ 1 ≤ (monthAndDay lengths day).2 ∧
      (monthAndDay lengths day).2 ≤ length := by
  induction lengths generalizing day with
  | nil => simp at h
  | cons first lengths ih =>
    simp only [List.length_cons, daysOfMonths_cons] at h
    unfold monthAndDay
    split
    · next hday => exact ⟨first, by simp, Nat.le_refl 1, Nat.le_add_left 1 day, hday⟩
    · obtain ⟨length, hlength, hmonth, hfirst, hlast⟩ := @ih (day - first) (by omega)
      refine ⟨length, ?_, Nat.le_add_left 1 _, hfirst, hlast⟩
      rw [List.getElem?_cons]
      simp only [Nat.add_sub_cancel]
      rw [if_neg (by omega)]
      exact hlength

theorem le_of_mem_monthLengths {leap : Bool} {length : Nat} (h : length ∈ monthLengths leap) :
    length ≤ 31 := by
  cases leap <;> simp [monthLengths] at h <;> omega

theorem length_monthLengths (leap : Bool) : (monthLengths leap).length = 12 := rfl

theorem dayOfYear_lt (day : Int) :
    (day - daysBeforeYear (yearOfDay day)).toNat <
      daysOfMonths (monthLengths (isLeapYear (yearOfDay day)))
        (monthLengths (isLeapYear (yearOfDay day))).length := by
  have hyear := yearOfDay_bounds day
  have hsucc := daysBeforeYear_succ (yearOfDay day)
  rw [daysOfMonths_monthLengths]
  split <;> simp_all <;> omega

namespace Date

theorem ofDays_bounds (days : Int) :
    (ofDays days).isValid = true ∧ (ofDays days).month ≤ 12 ∧ (ofDays days).day ≤ 31 := by
  obtain ⟨length, hlength, hmonth, hfirst, hlast⟩ :=
    monthAndDay_mem (dayOfYear_lt (days + epochDay))
  have hle := le_of_mem_monthLengths (List.mem_of_getElem? hlength)
  obtain ⟨hindex, -⟩ := List.getElem?_eq_some_iff.mp hlength
  rw [length_monthLengths] at hindex
  refine ⟨?_, by simp only [ofDays]; omega, by simp only [ofDays]; omega⟩
  obtain ⟨n, hn⟩ : ∃ n, (ofDays days).month = n + 1 :=
    Nat.exists_eq_succ_of_ne_zero (by simp only [ofDays]; omega)
  have hn' : (monthLengths (isLeapYear (ofDays days).year))[n + 1 - 1]? = some length := by
    rw [← hn]
    exact hlength
  unfold isValid
  rw [hn, hn']
  simp only [Bool.and_eq_true, decide_eq_true_eq]
  exact ⟨hfirst, hlast⟩

theorem isValid_ofDays (days : Int) : (ofDays days).isValid = true := (ofDays_bounds days).1

theorem year_ofDays_bounds (days : Int) (hlow : -96465292 ≤ days) (hhigh : days ≤ 95026236) :
    -262143 ≤ (ofDays days).year ∧ (ofDays days).year ≤ 262142 := by
  have hyear := yearOfDay_bounds (days + epochDay)
  show -262143 ≤ yearOfDay (days + epochDay) ∧ yearOfDay (days + epochDay) ≤ 262142
  unfold epochDay at *
  constructor
  · apply Int.not_lt.mp
    intro hlt
    have hmono := daysBeforeYear_mono (a := yearOfDay (days + 719162) + 1) (b := -262143) (by omega)
    have : daysBeforeYear (-262143) = -95746130 := by decide
    omega
  · apply Int.not_lt.mp
    intro hlt
    have hmono := daysBeforeYear_mono (a := 262143) (b := yearOfDay (days + 719162)) (by omega)
    have : daysBeforeYear 262143 = 95745399 := by decide
    omega

end Date

end Calendar

namespace Rfc3339

open Calendar

theorem trimStart_digits {ds rest : List Char} (hne : ds ≠ []) (hd : ∀ c ∈ ds, c.isDigit = true) :
    Text.trimStart (ds ++ rest) = ds ++ rest :=
  Text.trimStart_append rest hne fun c hc => Text.isBlank_of_isDigit (hd c hc)

/-- `number` takes digits up to a character that is none, or up to the greatest number of them. -/
theorem number_digits {least most : Nat} {ds rest : List Char} (hd : ∀ c ∈ ds, c.isDigit = true)
    (hleast : least ≤ ds.length) (hmost : ds.length ≤ most)
    (hend : ds.length = most ∨ ∀ c, rest.head? = some c → c.isDigit = false) :
    number least most (ds ++ rest) = some (Decimal.value ds, rest) := by
  have htake : ((ds ++ rest).take most).takeWhile Char.isDigit = ds := by
    rw [List.take_append, List.take_of_length_le hmost, List.takeWhile_append_of_pos hd]
    rcases hend with hend | hend
    · simp [hend]
    · cases rest with
      | nil => simp
      | cons c cs =>
        cases h : most - ds.length with
        | zero => simp
        | succ n => simp [hend c rfl]
  unfold number
  simp only [htake, List.drop_left]
  rw [if_neg (by omega)]

theorem looseNumber_padded {n : Nat} (h : n < 100) (rest : List Char) :
    looseNumber (Decimal.padded 2 n ++ rest) = some (n, rest) := by
  have hlength : (Decimal.padded 2 n).length = 2 := Decimal.length_padded h (by decide)
  have hne : Decimal.padded 2 n ≠ [] := fun hnil => by simp [hnil] at hlength
  rw [looseNumber, trimStart_digits hne fun c hc => Decimal.isDigit_of_mem_padded hc,
    number_digits (fun c hc => Decimal.isDigit_of_mem_padded hc) (by omega) (by omega)
      (.inl hlength), Decimal.value_padded]

theorem looseLiteral_cons {c : Char} (h : Text.isBlank c = false) (rest : List Char) :
    looseLiteral c (c :: rest) = some rest := by
  rw [looseLiteral, Text.trimStart_cons h]
  simp [literal]

theorem looseYear_yearText (year : Int) (rest : List Char) :
    looseYear (yearText year ++ '-' :: rest) = some (year, '-' :: rest) := by
  have hd : ∀ c ∈ Decimal.padded 4 year.natAbs, c.isDigit = true :=
    fun c hc => Decimal.isDigit_of_mem_padded hc
  have hlong := Decimal.le_length_padded 4 year.natAbs
  have hend : ∀ c, ('-' :: rest).head? = some c → c.isDigit = false := by simp
  have hsigned : ∀ most, (Decimal.padded 4 year.natAbs).length ≤ most →
      number 1 most (Decimal.padded 4 year.natAbs ++ '-' :: rest) =
        some (year.natAbs, '-' :: rest) := by
    intro most hmost
    rw [number_digits hd (by omega) hmost (.inr hend), Decimal.value_padded]
  unfold yearText
  split
  · next hyear =>
    have hlength : (Decimal.padded 4 year.natAbs).length = 4 :=
      Decimal.length_padded (by show year.natAbs < 10000; omega) (by decide)
    have hne : Decimal.padded 4 year.natAbs ≠ [] := fun hnil => by simp [hnil] at hlength
    unfold looseYear
    rw [trimStart_digits hne hd]
    split
    · next heq =>
      have := hd '-' (by cases hp : Decimal.padded 4 year.natAbs <;> simp_all)
      simp at this
    · next heq =>
      have := hd '+' (by cases hp : Decimal.padded 4 year.natAbs <;> simp_all)
      simp at this
    · rw [hsigned 4 (by omega), Option.map_some, Int.natAbs_of_nonneg hyear.1]
  · next hyear =>
    unfold looseYear
    rw [List.cons_append, Text.trimStart_cons (by split <;> decide)]
    by_cases hneg : year < 0
    · have habs : (year.natAbs : Int) = -year := Int.ofNat_natAbs_of_nonpos (Int.le_of_lt hneg)
      simp only [hneg, if_true]
      rw [hsigned _ (by simp), Option.map_some, habs, Int.neg_neg]
    · simp only [hneg, if_false]
      rw [hsigned _ (by simp), Option.map_some, Int.natAbs_of_nonneg (Int.not_lt.mp hneg)]

/-- The digits of a fraction stand for nanoseconds, with zeros for those that are left out. -/
theorem fraction_padded {width n : Nat} (hn : n < Nat.pow 10 width) (hw : 0 < width)
    (hw' : width ≤ 9) (rest : List Char) :
    fraction ('.' :: Decimal.padded width n ++ 'Z' :: rest) =
      some (n * Nat.pow 10 (9 - width), 'Z' :: rest) := by
  have hlength := Decimal.length_padded hn hw
  have hne : Decimal.padded width n ≠ [] := fun hnil => by simp [hnil] at hlength; omega
  have htake : (Decimal.padded width n ++ 'Z' :: rest).takeWhile Char.isDigit =
      Decimal.padded width n := by
    rw [List.takeWhile_append_of_pos fun c hc => Decimal.isDigit_of_mem_padded hc]
    simp
  have hkept : (Decimal.padded width n).take 9 = Decimal.padded width n :=
    List.take_of_length_le (by omega)
  have hdrop : (Decimal.padded width n ++ 'Z' :: rest).drop width = 'Z' :: rest :=
    List.drop_left' hlength
  simp only [fraction, List.cons_append, htake, hkept, Decimal.value_padded, hlength, hdrop]
  simp [hne]

theorem fraction_fractionText {nanos : Nat} (h : nanos < billion) (rest : List Char) :
    fraction (fractionText nanos ++ 'Z' :: rest) = some (nanos, 'Z' :: rest) := by
  unfold billion at h
  unfold fractionText
  split
  · next hz =>
    rw [hz]
    rfl
  · split
    · next hmilli =>
      rw [fraction_padded (by show _ < 1000; omega) (by decide) (by decide)]
      show some (nanos / 1000000 * 1000000, _) = _
      rw [Nat.div_mul_cancel (Nat.dvd_of_mod_eq_zero hmilli)]
    · split
      · next hmicro =>
        rw [fraction_padded (by show _ < 1000000; omega) (by decide) (by decide)]
        show some (nanos / 1000 * 1000, _) = _
        rw [Nat.div_mul_cancel (Nat.dvd_of_mod_eq_zero hmicro)]
      · rw [fraction_padded h (by decide) (by decide)]
        simp

/-! ## Instants -/

/-- What the written form of an instant says. -/
def readingOf (t : Instant) : Reading where
  date := Date.ofDays (t.seconds / 86400)
  hour := t.secondOfDay.toNat / 3600
  minute := t.secondOfDay.toNat / 60 % 60
  second := t.secondOfDay.toNat % 60 + if t.isLeap then 1 else 0
  nanos := t.nanos % billion
  offset := 0

theorem instant?_readingOf (t : Instant) : (readingOf t).instant? = some t := by
  have hfirst := t.first_le
  have hlast := t.le_last
  have hnanos := t.nanos_lt
  have hvalid := Date.isValid_ofDays (t.seconds / 86400)
  have hyear := Date.year_ofDays_bounds (t.seconds / 86400) (by omega) (by omega)
  have hdays := Date.toDays_ofDays (t.seconds / 86400)
  have hday : t.secondOfDay = t.seconds % 86400 := rfl
  have hleap : t.isLeap = true → t.seconds % 60 = 59 := fun h =>
    t.leap_second (of_decide_eq_true h)
  have hsecond : (t.secondOfDay.toNat % 60 + if t.isLeap then 1 else 0) ≤ 60 := by
    split <;> omega
  unfold Reading.instant? readingOf
  rw [if_pos (by
    simp only [hvalid, Bool.true_and, Bool.and_eq_true, decide_eq_true_eq]
    omega)]
  refine Instant.of?_eq_some_iff.mpr ⟨?_, ?_⟩
  · simp only [hdays]
    split at hsecond
    · next h =>
      have := hleap h
      rw [if_pos h]
      omega
    · next h =>
      rw [if_neg h]
      omega
  · unfold Instant.isLeap billion at *
    simp only [decide_eq_true_eq] at *
    by_cases h : 1000000000 ≤ t.nanos
    · have := hleap h
      rw [if_pos h, if_pos (by omega)]
      omega
    · rw [if_neg h, if_neg (by omega)]
      omega

/-- **Every instant reads back from its written form.** -/
theorem readLoosely?_write (t : Instant) :
    readLoosely? (String.ofList (write ['Z'] t)) = some t := by
  obtain ⟨-, hmonth, hday⟩ := Date.ofDays_bounds (t.seconds / 86400)
  have hsecondOfDay : t.secondOfDay.toNat < 86400 := by
    unfold Instant.secondOfDay
    omega
  have hsecond : (t.secondOfDay.toNat % 60 + if t.isLeap then 1 else 0) < 100 := by
    split <;> omega
  have hnanos : t.nanos % billion < billion := Nat.mod_lt _ (by decide)
  have hread := instant?_readingOf t
  unfold readingOf at hread
  have hcolon : Text.isBlank ':' = false := by decide
  have hdash : Text.isBlank '-' = false := by decide
  have hzone : looseZone (Text.trimStart ['Z']) = some (0, []) := by decide
  have hseparator : ∀ cs, separator ('T' :: cs) = some cs := fun _ => rfl
  have hrest : (Text.trimStart []).isEmpty = true := rfl
  have htext : write ['Z'] t =
      yearText (Date.ofDays (t.seconds / 86400)).year ++ '-' ::
        (Decimal.padded 2 (Date.ofDays (t.seconds / 86400)).month ++ '-' ::
          (Decimal.padded 2 (Date.ofDays (t.seconds / 86400)).day ++ 'T' ::
            (Decimal.padded 2 (t.secondOfDay.toNat / 3600) ++ ':' ::
              (Decimal.padded 2 (t.secondOfDay.toNat / 60 % 60) ++ ':' ::
                (Decimal.padded 2 (t.secondOfDay.toNat % 60 + if t.isLeap then 1 else 0) ++
                  (fractionText (t.nanos % billion) ++ ['Z'])))))) := by
    simp [write]
  unfold readLoosely?
  rw [String.toList_ofList, htext]
  dsimp only [Option.bind_eq_bind]
  -- The date, then the time, each part up to the text of the next.
  rw [looseYear_yearText, Option.bind_some]
  dsimp only
  rw [looseLiteral_cons hdash, Option.bind_some, looseNumber_padded (by omega), Option.bind_some]
  dsimp only
  rw [looseLiteral_cons hdash, Option.bind_some, looseNumber_padded (by omega), Option.bind_some]
  dsimp only
  rw [hseparator, Option.bind_some, looseNumber_padded (by omega), Option.bind_some]
  dsimp only
  rw [looseLiteral_cons hcolon, Option.bind_some, looseNumber_padded (by omega), Option.bind_some]
  dsimp only
  rw [looseLiteral_cons hcolon, Option.bind_some, looseNumber_padded hsecond, Option.bind_some]
  dsimp only
  rw [fraction_fractionText hnanos, Option.bind_some]
  dsimp only
  rw [hzone, Option.bind_some]
  dsimp only
  rw [if_pos hrest]
  exact hread

end Rfc3339

end WatchHistory
