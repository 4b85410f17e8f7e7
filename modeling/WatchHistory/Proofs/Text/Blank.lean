import WatchHistory.Text.Blank

/-!
# Texts without blanks at their ends

What `Text.trim` leaves has only blanks before and behind it (`exists_blanks_trim`), and a text
without any blank is what it leaves of the text with blanks put around it (`trim_blanks`).
-/

set_option autoImplicit false

namespace WatchHistory.Text

theorem isBlank_of_isDigit {c : Char} (h : c.isDigit = true) : isBlank c = false := by
  unfold Char.isDigit at h
  simp only [ge_iff_le, Bool.and_eq_true, decide_eq_true_eq, UInt32.le_iff_toNat_le] at h
  have h₁ : 48 ≤ c.toNat := h.1
  have h₂ : c.toNat ≤ 57 := h.2
  simp only [isBlank, blankRanges, List.any_cons, List.any_nil, Bool.or_false,
    Bool.or_eq_false_iff, Bool.and_eq_false_imp, decide_eq_true_eq, decide_eq_false_iff_not]
  omega

theorem trimStart_cons {c : Char} {cs : List Char} (h : isBlank c = false) :
    trimStart (c :: cs) = c :: cs := by
  simp [trimStart, h]

theorem trimStart_append {body : List Char} (rest : List Char) (hne : body ≠ [])
    (h : ∀ c ∈ body, isBlank c = false) : trimStart (body ++ rest) = body ++ rest := by
  cases body with
  | nil => exact absurd rfl hne
  | cons c body => exact trimStart_cons (h c List.mem_cons_self)

theorem trimStart_blanks {blanks : List Char} (rest : List Char)
    (h : ∀ c ∈ blanks, isBlank c = true) : trimStart (blanks ++ rest) = trimStart rest :=
  List.dropWhile_append_of_pos h

theorem exists_blanks_trimStart (cs : List Char) :
    ∃ blanks, cs = blanks ++ trimStart cs ∧ ∀ c ∈ blanks, isBlank c = true :=
  ⟨cs.takeWhile isBlank, List.takeWhile_append_dropWhile.symm,
    List.all_eq_true.mp List.all_takeWhile⟩

/-- What `trim` drops at both ends of a text are blanks. -/
theorem exists_blanks_trim (cs : List Char) :
    ∃ before after, cs = before ++ trim cs ++ after ∧ (∀ c ∈ before, isBlank c = true) ∧
      ∀ c ∈ after, isBlank c = true := by
  obtain ⟨before, hbefore, hblank⟩ := exists_blanks_trimStart cs
  obtain ⟨after, hafter, hblank'⟩ := exists_blanks_trimStart (trimStart cs).reverse
  refine ⟨before, after.reverse, ?_, hblank, fun c hc => hblank' c (List.mem_reverse.mp hc)⟩
  have hstart : trimStart cs = trim cs ++ after.reverse := by
    rw [trim, ← List.reverse_append, ← hafter, List.reverse_reverse]
  rw [List.append_assoc, ← hstart]
  exact hbefore

theorem trim_blanks {before body after : List Char} (hbefore : ∀ c ∈ before, isBlank c = true)
    (hafter : ∀ c ∈ after, isBlank c = true) (hne : body ≠ [])
    (hbody : ∀ c ∈ body, isBlank c = false) : trim (before ++ body ++ after) = body := by
  have hbody' : trimStart (body.reverse ++ []) = body.reverse ++ [] :=
    trimStart_append [] (List.reverse_ne_nil_iff.mpr hne)
      fun c hc => hbody c (List.mem_reverse.mp hc)
  rw [List.append_nil] at hbody'
  rw [trim, List.append_assoc, trimStart_blanks _ hbefore, trimStart_append _ hne hbody,
    List.reverse_append, trimStart_blanks _ fun c hc => hafter c (List.mem_reverse.mp hc), hbody',
    List.reverse_reverse]

end WatchHistory.Text
