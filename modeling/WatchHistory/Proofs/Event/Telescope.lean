import WatchHistory.EventDelta
import WatchHistory.Proofs.Partition.Id

/-!
# Observations of one event

What each observation of an event adds to the one before is told from their last times. Over any
observations that do not go back (`Cumulative`), the parts add up to the last count less what the
count has grown by while the last time stood still (`successive_telescope`), so they add up to the
last count exactly if observations with one last time have one count.
-/

set_option autoImplicit false

namespace WatchHistory

namespace Instant

theorem le_trans {a b c : Instant} (hab : a ≤ b) (hbc : b ≤ c) : a ≤ c := by
  rw [le_iff, lt_iff] at *
  omega

theorem eq_of_le_of_le {a b : Instant} (hab : a ≤ b) (hba : b ≤ a) : a = b :=
  StrictOrder.connex hba hab

end Instant

namespace EventDelta

/-- What each observation tells that the one before it did not. -/
def successive (previous : Option EventInfo) : List EventInfo → List EventDelta
  | [] => []
  | e :: es => ofObservations previous e :: successive (some e) es

/-- The sum of the counts of several parts. -/
def total (ds : List EventDelta) : Int := (ds.map fun d => d.count).sum

@[simp] theorem total_cons (d : EventDelta) (ds : List EventDelta) :
    total (d :: ds) = d.count + total ds := by
  rw [total, List.map_cons, List.sum_cons]
  rfl

/-- What the count has grown by from one observation to the next one while the last time stood
still. -/
def stalled : List EventInfo → Int
  | [] => 0
  | [_] => 0
  | e :: e' :: es => (if e.last = e'.last then e'.count - e.count else 0) + stalled (e' :: es)

/-- Whether observations tell of one event in the order in which they were made: it started at one
instant, not after the first of them, counts have 64 bits and are not negative, and neither last
times nor counts go back. -/
structure Cumulative (first : Instant) (es : List EventInfo) : Prop where
  counted : ∀ e ∈ es, 0 ≤ e.count ∧ e.count ≤ Decimal.greatest
  first_eq : ∀ e ∈ es, e.first = first
  started : ∀ e ∈ es.head?, first ≤ e.last
  lasts : es.Pairwise fun a b => a.last ≤ b.last
  counts : es.Pairwise fun a b => a.count ≤ b.count

namespace Cumulative

variable {first : Instant} {e e' : EventInfo} {es : List EventInfo}

theorem last_le (h : Cumulative first (e :: es)) : ∀ b ∈ es, e.last ≤ b.last :=
  (List.pairwise_cons.mp h.lasts).1

theorem count_le (h : Cumulative first (e :: es)) : ∀ b ∈ es, e.count ≤ b.count :=
  (List.pairwise_cons.mp h.counts).1

theorem tail (h : Cumulative first (e :: es)) : Cumulative first es where
  counted b hb := h.counted b (List.mem_cons_of_mem e hb)
  first_eq b hb := h.first_eq b (List.mem_cons_of_mem e hb)
  started b hb :=
    Instant.le_trans (h.started e rfl) (h.last_le b (List.mem_of_mem_head? hb))
  lasts := (List.pairwise_cons.mp h.lasts).2
  counts := (List.pairwise_cons.mp h.counts).2

theorem not_overflows (h : Cumulative first es) (he : e ∈ es) (he' : e' ∈ es) :
    ¬ Overflows (some e) e' := by
  intro hover
  obtain ⟨p, hp, -, -, ⟨-, hbeyond⟩ | ⟨hfirst, -⟩⟩ := hover
  · obtain rfl := Option.some.inj hp
    rw [Decimal.fits_sub (h.counted e' he') (h.counted e he)] at hbeyond
    cases hbeyond
  · obtain rfl := Option.some.inj hp
    exact hfirst ((h.first_eq e he).trans (h.first_eq e' he').symm)

/-- The next observation tells how much the count has grown, or nothing if its last time is the one
told before. -/
theorem count_ofObservations (h : Cumulative first (e :: e' :: es)) :
    (ofObservations (some e) e').count =
      e'.count - e.count - if e.last = e'.last then e'.count - e.count else 0 := by
  have hstarted : ¬ e.last < e'.first :=
    h.first_eq e' (by simp) ▸ h.started e rfl
  have hfirst : e.first = e'.first := (h.first_eq e (by simp)).trans (h.first_eq e' (by simp)).symm
  have hle : e.last ≤ e'.last := h.last_le e' (by simp)
  have hcount : e.count ≤ e'.count := h.count_le e' (by simp)
  have hgrown := Decimal.wrap_of_fits
    (Decimal.fits_sub (h.counted e' (by simp)) (h.counted e (by simp)))
  unfold ofObservations
  dsimp only
  rw [if_neg hstarted, hgrown]
  by_cases hlast : e.last = e'.last
  · rw [if_pos (hlast ▸ StrictOrder.irrefl e.last), if_pos hlast, Int.sub_self]
    rfl
  · rw [if_neg fun hback => hlast (Instant.eq_of_le_of_le hle hback), if_pos hfirst,
      if_neg (Int.not_lt.mpr (Int.sub_nonneg_of_le hcount)), if_neg hlast, Int.sub_zero]

/-- After an observation, the others tell how much the count grows after it, less the growth that
`stalled` counts. -/
theorem total_successive (h : Cumulative first (e :: es)) {newest : EventInfo}
    (hnewest : (e :: es).getLast? = some newest) :
    total (successive (some e) es) + stalled (e :: es) = newest.count - e.count := by
  induction es generalizing e with
  | nil =>
    cases hnewest
    exact (Int.sub_self e.count).symm
  | cons e' es ih =>
    have hstep := h.count_ofObservations
    have hrest := ih h.tail (List.getLast?_cons_cons ▸ hnewest)
    rw [successive, total_cons, stalled, hstep]
    omega

theorem stalled_nonneg (h : Cumulative first es) : 0 ≤ stalled es := by
  induction es using stalled.induct with
  | case1 => exact Int.le_refl 0
  | case2 e => exact Int.le_refl 0
  | case3 e e' es ih =>
    have hrest := ih h.tail
    have hcount : e.count ≤ e'.count := h.count_le e' (by simp)
    rw [stalled]
    split <;> omega

theorem stalled_eq_zero_iff (h : Cumulative first es) :
    stalled es = 0 ↔ ∀ a ∈ es, ∀ b ∈ es, a.last = b.last → a.count = b.count := by
  induction es using stalled.induct with
  | case1 => simp [stalled]
  | case2 e => simp [stalled]
  | case3 e e' es ih =>
    have hcount : e.count ≤ e'.count := h.count_le e' (by simp)
    have hrest := h.tail.stalled_nonneg
    have hsplit : stalled (e :: e' :: es) = 0 ↔
        (e.last = e'.last → e.count = e'.count) ∧ stalled (e' :: es) = 0 := by
      rw [stalled]
      by_cases hlast : e.last = e'.last
      · rw [if_pos hlast, forall_prop_of_true hlast]
        omega
      · rw [if_neg hlast, Int.zero_add, forall_prop_of_false hlast, true_and]
    rw [hsplit, ih h.tail]
    constructor
    · rintro ⟨hstep, htail⟩
      -- An observation with the last time of `e` leaves no room for `e'` to have a later one.
      have hhead : ∀ b ∈ e' :: es, e.last = b.last → e.count = b.count := by
        intro b hb hlast
        have hle : e'.last ≤ e.last := by
          rcases List.mem_cons.mp hb with rfl | hb
          · exact hlast ▸ StrictOrder.irrefl e.last
          · exact hlast ▸ h.tail.last_le b hb
        have heq := Instant.eq_of_le_of_le (h.last_le e' (by simp)) hle
        exact (hstep heq).trans (htail e' (by simp) b hb (heq ▸ hlast))
      intro a ha b hb hlast
      rcases List.mem_cons.mp ha with rfl | ha' <;> rcases List.mem_cons.mp hb with rfl | hb'
      · rfl
      · exact hhead b hb' hlast
      · exact (hhead a ha' hlast.symm).symm
      · exact htail a ha' b hb' hlast
    · intro hall
      exact ⟨hall e (by simp) e' (by simp), fun a ha b hb =>
        hall a (List.mem_cons_of_mem e ha) b (List.mem_cons_of_mem e hb)⟩

end Cumulative

/-- **Deltas telescope.** What the observations of one event tell, one after the other, adds up to
the count of the newest one less what the count has grown by while the last time stood still. It
adds up to the whole count exactly if observations with one last time have one count. No difference
of their counts overflows. -/
theorem successive_telescope {first : Instant} {es : List EventInfo} {newest : EventInfo}
    (h : Cumulative first es) (hnewest : es.getLast? = some newest) :
    total (successive none es) + stalled es = newest.count ∧
    (total (successive none es) = newest.count ↔
      ∀ a ∈ es, ∀ b ∈ es, a.last = b.last → a.count = b.count) ∧
    ∀ a ∈ es, ∀ b ∈ es, ¬ Overflows (some a) b := by
  have hsum : total (successive none es) + stalled es = newest.count := by
    cases es with
    | nil => cases hnewest
    | cons e es =>
      have hrest := h.total_successive hnewest
      show (e.count + total (successive (some e) es)) + stalled (e :: es) = newest.count
      omega
  refine ⟨hsum, ?_, fun a ha b hb => h.not_overflows ha hb⟩
  rw [← h.stalled_eq_zero_iff]
  omega

/-- An observation of an event that started with the year 2019. -/
def backOff (last : Int) (count : Int) : EventInfo where
  reason := "BackOff"
  type := "Warning"
  first := Partition.startAt 1546300800
  last := Partition.startAt last
  count := count

theorem cumulative_backOff : Cumulative (backOff 1546300800 0).first
    [backOff 1546300860 3, backOff 1546300860 5, backOff 1546300920 9] where
  counted := by decide
  first_eq := by decide
  started := by decide
  lasts := by decide
  counts := by decide

/-- Of a count that grows from three over five to nine, seven are told: nothing is of the growth
while the last time stands still. -/
theorem successive_telescope_backOff :
    (total (successive none [backOff 1546300860 3, backOff 1546300860 5, backOff 1546300920 9]) +
        stalled [backOff 1546300860 3, backOff 1546300860 5, backOff 1546300920 9] = 9) ∧
    total (successive none [backOff 1546300860 3, backOff 1546300860 5, backOff 1546300920 9]) =
      7 :=
  ⟨(successive_telescope cumulative_backOff rfl).1, by decide⟩

/-- Last times and counts that do not go back are not enough: an event that happens again within
the second of its last time is not counted again. -/
theorem not_successive_whole : ¬ ∀ (first : Instant) (es : List EventInfo) (newest : EventInfo),
    Cumulative first es → es.getLast? = some newest →
      total (successive none es) = newest.count := by
  intro h
  have hwhole := h (backOff 1546300800 0).first [backOff 1546300860 3, backOff 1546300860 5]
    (backOff 1546300860 5) ⟨by decide, by decide, by decide, by decide, by decide⟩ rfl
  exact absurd hwhole (by decide)

end EventDelta

end WatchHistory
