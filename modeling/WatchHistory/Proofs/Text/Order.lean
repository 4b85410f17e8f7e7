import WatchHistory.Store.Basic

/-!
# The order of texts and the range of a stem

Texts are ordered as lists of characters. What lies in the range of a stem is what continues it by
anything that does not start with the greatest character (`mem_range_iff`), and a segment decides
the order of the texts that it starts, as long as every character of it but the first comes after
the slash (`segment_lt_segment`).
-/

set_option autoImplicit false

namespace WatchHistory.Text

theorem append_lt_append_left (pre : List Char) {a b : List Char} :
    pre ++ a < pre ++ b ↔ a < b := by
  induction pre with
  | nil => rfl
  | cons c pre ih => rw [List.cons_append, List.cons_append, List.cons_lt_cons_self, ih]

theorem toNat_le_sentinel (c : Char) : c.toNat ≤ Store.sentinel.toNat := by
  have h : Store.sentinel.toNat = 0x10ffff := by decide
  rcases c.valid with hc | hc
  · change c.toNat < _ at hc
    omega
  · change _ ∧ c.toNat < _ at hc
    omega

theorem lt_iff_toNat_lt {a b : Char} : a < b ↔ a.toNat < b.toNat := Iff.rfl

theorem lt_sentinel_iff {c : Char} : c < Store.sentinel ↔ c ≠ Store.sentinel := by
  have hle := toNat_le_sentinel c
  rw [lt_iff_toNat_lt, Ne, ← Char.toNat_inj]
  omega

/-- Whether a text does not start with the greatest character. -/
def Plain (cs : List Char) : Prop := ∀ c, cs.head? = some c → c ≠ Store.sentinel

theorem plain_cons {c : Char} (h : c ≠ Store.sentinel) (cs : List Char) : Plain (c :: cs) := by
  intro d hd
  rw [List.head?_cons, Option.some.injEq] at hd
  exact hd ▸ h

theorem plain_slash (cs : List Char) : Plain ('/' :: cs) := plain_cons (by decide) cs

theorem plain_append {cs : List Char} (h : Plain cs) {ds : List Char} (hd : Plain ds) :
    Plain (cs ++ ds) := by
  cases cs with
  | nil => exact hd
  | cons c cs => exact fun d hd => h d hd

theorem plain_of_plain_append {cs ds : List Char} (h : Plain (cs ++ ds)) : Plain cs := by
  intro c hc
  cases cs with
  | nil => cases hc
  | cons d cs => exact h c hc

theorem lt_push_sentinel_iff {stem x : List Char} :
    (¬ x < stem ∧ x < stem ++ [Store.sentinel]) ↔ ∃ rest, x = stem ++ rest ∧ Plain rest := by
  induction stem generalizing x with
  | nil =>
    cases x with
    | nil => simp [Plain]
    | cons c cs =>
      simp only [List.not_lt_nil, not_false_eq_true, List.nil_append, true_and, exists_eq_left',
        List.cons_lt_cons_iff, and_false, or_false, lt_sentinel_iff, Plain, List.head?_cons,
        Option.some.injEq, forall_eq']
  | cons s stem ih =>
    cases x with
    | nil => simp
    | cons c cs =>
      simp only [List.cons_append, List.cons_lt_cons_iff, List.cons.injEq, not_or, not_and]
      constructor
      · rintro ⟨⟨hlt, hle⟩, hlt' | ⟨rfl, hend⟩⟩
        · exact absurd hlt' hlt
        · obtain ⟨rest, rfl, hrest⟩ := ih.mp ⟨hle rfl, hend⟩
          exact ⟨rest, ⟨rfl, rfl⟩, hrest⟩
      · rintro ⟨rest, ⟨rfl, rfl⟩, hrest⟩
        obtain ⟨hle, hend⟩ := ih.mpr ⟨rest, rfl, hrest⟩
        exact ⟨⟨Char.lt_irrefl c, fun _ => hle⟩, .inr ⟨rfl, hend⟩⟩

/-- The range of a stem has the texts that continue the stem, but not by the greatest character. -/
theorem mem_range_iff {stem x : String} :
    (¬ x < stem ∧ x < Store.stemEnd stem) ↔
      ∃ rest, x.toList = stem.toList ++ rest ∧ Plain rest := by
  rw [String.lt_iff, String.lt_iff, Store.stemEnd, String.toList_push]
  exact lt_push_sentinel_iff

/-! ## Segments -/

/-- Whether every character of a segment but the first comes after the slash, and there is one. -/
def Ranked (p : List Char) : Prop := p ≠ [] ∧ ∀ c ∈ p.tail, '/' < c

theorem append_slash_lt {p q r s : List Char} (hq : ∀ c ∈ q, '/' < c) (h : p < q) :
    p ++ '/' :: r < q ++ '/' :: s := by
  induction p generalizing q with
  | nil =>
    cases q with
    | nil => simp at h
    | cons d q =>
      rw [List.nil_append, List.cons_append, List.cons_lt_cons_iff]
      exact .inl (hq d List.mem_cons_self)
  | cons c p ih =>
    cases q with
    | nil => simp at h
    | cons d q =>
      rw [List.cons_append, List.cons_append, List.cons_lt_cons_iff]
      rw [List.cons_lt_cons_iff] at h
      rcases h with h | ⟨hcd, h⟩
      · exact .inl h
      · exact .inr ⟨hcd, ih (fun e he => hq e (List.mem_cons_of_mem _ he)) h⟩

/-- Segments that are in order put the texts that they start in order, whatever comes behind
them. -/
theorem segment_lt_segment {p q r s : List Char} (hp : Ranked p) (hq : Ranked q) (h : p < q) :
    p ++ '/' :: r < q ++ '/' :: s := by
  obtain ⟨hpne, -⟩ := hp
  obtain ⟨-, hq⟩ := hq
  cases p with
  | nil => exact absurd rfl hpne
  | cons c p =>
    cases q with
    | nil => simp at h
    | cons d q =>
      rw [List.cons_append, List.cons_append, List.cons_lt_cons_iff]
      rw [List.cons_lt_cons_iff] at h
      rcases h with h | ⟨hcd, h⟩
      · exact .inl h
      · exact .inr ⟨hcd, append_slash_lt hq h⟩

end WatchHistory.Text
