/-!
# Segments of a text

A text is cut into segments at every occurrence of a separator, so `n` separators give `n + 1`
segments.

* `join_split`: joining the segments gives the text again.
* `split_join`: segments free of the separator come back from their join.
-/

set_option autoImplicit false

namespace WatchHistory.Text

/-- The segments between the separators. -/
def split (sep : Char) : List Char → List (List Char)
  | [] => [[]]
  | c :: cs =>
    match split sep cs with
    | [] => [[c]]
    | s :: ss => if c = sep then [] :: s :: ss else (c :: s) :: ss

/-- The segments with the separator between them. -/
def join (sep : Char) : List (List Char) → List Char
  | [] => []
  | [s] => s
  | s :: t :: ss => s ++ sep :: join sep (t :: ss)

theorem split_ne_nil (sep : Char) (cs : List Char) : split sep cs ≠ [] := by
  cases cs with
  | nil => simp [split]
  | cons c cs =>
    unfold split
    split
    · simp
    · split <;> simp

theorem join_split (sep : Char) (cs : List Char) : join sep (split sep cs) = cs := by
  induction cs with
  | nil => rfl
  | cons c cs ih =>
    unfold split
    split
    · next h => exact absurd h (split_ne_nil sep cs)
    · next s ss h =>
      rw [h] at ih
      split
      · next hc => simp [join, ih, hc]
      · cases ss with
        | nil => simpa [join] using ih
        | cons t ss => simpa [join] using ih

theorem split_of_not_mem {sep : Char} {s : List Char} (h : sep ∉ s) : split sep s = [s] := by
  induction s with
  | nil => rfl
  | cons c cs ih =>
    have hc : ¬ c = sep := fun hc => h (hc ▸ List.mem_cons_self)
    simp [split, ih fun hm => h (List.mem_cons_of_mem _ hm), hc]

theorem split_append {sep : Char} {s : List Char} (h : sep ∉ s) (cs : List Char) :
    split sep (s ++ sep :: cs) = s :: split sep cs := by
  induction s with
  | nil =>
    have hne := split_ne_nil sep cs
    cases hs : split sep cs with
    | nil => exact absurd hs hne
    | cons t ts => simp [split, hs]
  | cons c s ih =>
    have hc : ¬ c = sep := fun hc => h (hc ▸ List.mem_cons_self)
    simp [split, ih fun hm => h (List.mem_cons_of_mem _ hm), hc]

theorem split_join {sep : Char} {ss : List (List Char)} (hne : ss ≠ [])
    (h : ∀ s ∈ ss, sep ∉ s) : split sep (join sep ss) = ss := by
  induction ss with
  | nil => exact absurd rfl hne
  | cons s ss ih =>
    have hs := h s List.mem_cons_self
    cases ss with
    | nil => exact split_of_not_mem hs
    | cons t ss =>
      rw [join, split_append hs, ih (by simp) fun u hu => h u (List.mem_cons_of_mem _ hu)]

end WatchHistory.Text
