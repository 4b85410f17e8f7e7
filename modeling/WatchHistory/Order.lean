/-!
# Strict orders on keys

`StrictOrder κ` is a decidable strict total order. Maps list their keys in it, and ranges of rows
are cut out of it.

* `StrictOrder.lex` orders pairs by the first component and then by the second.
* `StrictOrder.pullback` orders a type through an injective view of it.
* Texts are ordered by code point, numbers by value, and an absent value comes before every
  present one.
-/

set_option autoImplicit false

namespace WatchHistory

/-- A decidable strict total order. -/
class StrictOrder (κ : Type) extends LT κ where
  decideLt : (a b : κ) → Decidable (a < b)
  irrefl : ∀ a : κ, ¬ a < a
  trans : ∀ {a b c : κ}, a < b → b < c → a < c
  connex : ∀ {a b : κ}, ¬ a < b → ¬ b < a → a = b

namespace StrictOrder

instance {κ : Type} [StrictOrder κ] (a b : κ) : Decidable (a < b) := decideLt a b

instance : StrictOrder Nat where
  decideLt := inferInstance
  irrefl := Nat.lt_irrefl
  trans := Nat.lt_trans
  connex h h' := Nat.le_antisymm (Nat.le_of_not_lt h') (Nat.le_of_not_lt h)

instance : StrictOrder Int where
  decideLt := inferInstance
  irrefl := Int.lt_irrefl
  trans := Int.lt_trans
  connex h h' := Int.le_antisymm (Int.not_lt.mp h') (Int.not_lt.mp h)

/-- Texts are ordered by code point. -/
instance : StrictOrder String where
  decideLt := inferInstance
  irrefl := String.lt_irrefl
  trans := String.lt_trans
  connex h h' := String.le_antisymm (String.not_lt.mp h') (String.not_lt.mp h)

/-- An absent value comes before every present one. -/
instance {κ : Type} [StrictOrder κ] : StrictOrder (Option κ) where
  decideLt
    | _, none => isFalse Option.not_lt_none
    | none, some _ => isTrue Option.none_lt_some
    | some a, some b =>
      if h : a < b then isTrue (Option.some_lt_some.mpr h)
      else isFalse fun h' => h (Option.some_lt_some.mp h')
  irrefl
    | none => Option.not_lt_none
    | some a => fun h => irrefl a (Option.some_lt_some.mp h)
  trans {a b c} := by
    cases a <;> cases b <;> cases c <;> simp
    exact StrictOrder.trans
  connex {a b} := by
    cases a <;> cases b <;> simp
    exact fun h h' => connex h h'

/-- Pairs ordered by the first component, and by the second where the first agree. -/
@[reducible] def lex (α β : Type) [StrictOrder α] [StrictOrder β] : StrictOrder (α × β) where
  lt a b := a.1 < b.1 ∨ (¬ b.1 < a.1 ∧ a.2 < b.2)
  decideLt a b := inferInstanceAs (Decidable (a.1 < b.1 ∨ (¬ b.1 < a.1 ∧ a.2 < b.2)))
  irrefl a h := h.elim (irrefl a.1) fun h => irrefl a.2 h.2
  trans {a b c} h h' := by
    rcases h with h | ⟨h₁, h₂⟩ <;> rcases h' with h' | ⟨h₁', h₂'⟩
    · exact .inl (StrictOrder.trans h h')
    · by_cases hac : a.1 < c.1
      · exact .inl hac
      · by_cases hbc : b.1 < c.1
        · exact absurd (StrictOrder.trans h hbc) hac
        · exact absurd (connex hbc h₁' ▸ h) hac
    · by_cases hac : a.1 < c.1
      · exact .inl hac
      · by_cases hab : a.1 < b.1
        · exact absurd (StrictOrder.trans hab h') hac
        · exact absurd ((connex hab h₁).symm ▸ h') (fun h => hac h)
    · by_cases hab : a.1 < b.1
      · by_cases hbc : b.1 < c.1
        · exact .inl (StrictOrder.trans hab hbc)
        · exact .inl (connex hbc h₁' ▸ hab)
      · have hab' := connex hab h₁
        exact if hac : a.1 < c.1 then .inl hac
          else .inr ⟨hab' ▸ h₁', StrictOrder.trans h₂ h₂'⟩
  connex {a b} h h' := by
    have hab : ¬ a.1 < b.1 := fun hlt => h (.inl hlt)
    have hba : ¬ b.1 < a.1 := fun hlt => h' (.inl hlt)
    exact Prod.ext (connex hab hba)
      (connex (fun hlt => h (.inr ⟨hba, hlt⟩)) (fun hlt => h' (.inr ⟨hab, hlt⟩)))

/-- The order of the views, where different values have different views. -/
@[reducible] def pullback {κ ι : Type} [StrictOrder ι] (view : κ → ι)
    (injective : ∀ {a b : κ}, view a = view b → a = b) : StrictOrder κ where
  lt a b := view a < view b
  decideLt a b := inferInstanceAs (Decidable (view a < view b))
  irrefl a := irrefl (view a)
  trans := StrictOrder.trans
  connex h h' := injective (connex h h')

end StrictOrder

end WatchHistory
