import WatchHistory.Json.Decode
import WatchHistory.Proofs.Json.Numeral

/-!
# Written JSON reads back

`read?_render`: a tree whose numerals are whole numbers and whose literals are encoded texts
(`Json.Written`, which all stored rows are) reads back from its text as the same tree.

* `cuts`: the text of a tree is cut into the tokens of the tree (`tokensOf`), by induction on the
  tree.
* `puts`: the machine puts the tokens of a tree together and goes on as if the finished tree had
  been put in their place.
-/

set_option autoImplicit false

namespace WatchHistory.Json

/-- A tree in which every numeral is one of a whole number and every literal one of a text. -/
inductive Written : Json → Prop
  | null : Written .null
  | bool (b : Bool) : Written (.bool b)
  | int (i : Int) : Written (ofInt i)
  | text (s : String) : Written (ofText s)
  | array {items : List Json} (h : ∀ j ∈ items, Written j) : Written (.array items)
  | object {members : List (List Char × Json)}
      (hname : ∀ m ∈ members, ∃ s : String, m.1 = Literal.encode s)
      (h : ∀ m ∈ members, Written m.2) : Written (.object members)

/-! ## The tokens of a tree -/

mutual

/-- The tokens of a tree. -/
def tokensOf : Json → List Token
  | .null => [.null]
  | .bool b => [.bool b]
  | .number n => [.number n]
  | .text s => [.text s]
  | .array items => .openArray :: (itemTokens items ++ [.closeArray])
  | .object members => .openObject :: (memberTokens members ++ [.closeObject])

/-- The tokens of items, with commas between them. -/
def itemTokens : List Json → List Token
  | [] => []
  | [j] => tokensOf j
  | j :: k :: js => tokensOf j ++ .comma :: itemTokens (k :: js)

/-- The tokens of members, with commas between them. -/
def memberTokens : List (List Char × Json) → List Token
  | [] => []
  | [(name, j)] => .text name :: .colon :: tokensOf j
  | (name, j) :: m :: ms => .text name :: .colon :: (tokensOf j ++ .comma :: memberTokens (m :: ms))

end

theorem tokensFrom_cons {c : Char} {cs rest : List Char} {token : Token} (found : List Token)
    (hs : isSpace c = false) (ht : takeToken? c cs = some (token, rest)) :
    tokensFrom found (c :: cs) = tokensFrom (token :: found) rest := by
  rw [tokensFrom, hs]
  simp only [Bool.false_eq_true, if_false]
  split
  · next h => rw [ht] at h; cases h
  · next h => rw [ht] at h; cases h; rfl

theorem tokensFrom_word (found : List Token) (rest : List Char) :
    tokensFrom found ("null".toList ++ rest) = tokensFrom (.null :: found) rest ∧
      tokensFrom found ("true".toList ++ rest) = tokensFrom (.bool true :: found) rest ∧
      tokensFrom found ("false".toList ++ rest) = tokensFrom (.bool false :: found) rest :=
  ⟨tokensFrom_cons found (by decide) rfl, tokensFrom_cons found (by decide) rfl,
    tokensFrom_cons found (by decide) rfl⟩

theorem tokensFrom_quote (found : List Token) (s : String) (rest : List Char) :
    tokensFrom found (quote (Literal.encode s) ++ rest) =
      tokensFrom (.text (Literal.encode s) :: found) rest := by
  apply tokensFrom_cons found (by decide)
  have h := Literal.take?_encode s rest
  simp [takeToken?, h]

theorem tokensFrom_number (found : List Token) (i : Int) {rest : List Char}
    (hr : Numeral.Ends rest) :
    tokensFrom found ((Numeral.ofInt i).render ++ rest) =
      tokensFrom (.number (Numeral.ofInt i) :: found) rest := by
  have htake := Numeral.take?_render_ofInt i hr
  have hmem : ∀ c ∈ (Numeral.ofInt i).render, c = '-' ∨ c.isDigit = true := by
    intro c hc
    simp only [Numeral.render, Numeral.ofInt, List.append_nil, List.mem_append,
      decide_eq_true_eq, List.mem_ite_nil_right, List.mem_singleton] at hc
    rcases hc with ⟨-, hc⟩ | hc
    · exact .inl hc
    · exact .inr (Decimal.isDigit_of_mem_ofNat hc)
  cases hn : (Numeral.ofInt i).render with
  | nil =>
    have := Decimal.ofNat_ne_nil i.natAbs
    simp [Numeral.render, Numeral.ofInt, this] at hn
  | cons c cs =>
    rw [hn] at htake hmem
    have hc := hmem c List.mem_cons_self
    refine tokensFrom_cons found ?_ ?_
    · rcases hc with rfl | hc
      · decide
      · unfold isSpace
        simp only [Bool.or_eq_false_iff, decide_eq_false_iff_not]
        refine ⟨⟨⟨?_, ?_⟩, ?_⟩, ?_⟩ <;> rintro rfl <;> simp at hc
    · rw [List.cons_append] at htake
      unfold takeToken?
      split <;> first
        | (rcases hc with hc | hc <;> simp at hc)
        | simp [htake]

theorem ends_comma (rest : List Char) : Numeral.Ends (',' :: rest) :=
  Numeral.ends_cons (by decide)

/-- The text of a tree is cut into the tokens of the tree, whatever stands around it. -/
def Cuts (j : Json) : Prop :=
  ∀ (found : List Token) (rest : List Char), Numeral.Ends rest →
    tokensFrom found (renderChars j ++ rest) = tokensFrom ((tokensOf j).reverse ++ found) rest

theorem tokensFrom_items {items : List Json} (rest : List Char) (hr : Numeral.Ends rest)
    (ih : ∀ j ∈ items, Cuts j) (found : List Token) :
    tokensFrom found (renderItems items ++ rest) =
      tokensFrom ((itemTokens items).reverse ++ found) rest := by
  induction items generalizing found with
  | nil => simp [renderItems, itemTokens]
  | cons j js ihs =>
    cases js with
    | nil =>
      rw [renderItems, itemTokens]
      exact ih j List.mem_cons_self found rest hr
    | cons k js =>
      rw [renderItems, itemTokens, List.append_assoc, List.cons_append,
        ih j List.mem_cons_self _ _ (ends_comma _), tokensFrom_cons _ (by decide) rfl,
        ihs fun l hl => ih l (List.mem_cons_of_mem _ hl)]
      simp

theorem tokensFrom_members {members : List (List Char × Json)} (rest : List Char)
    (hr : Numeral.Ends rest) (hname : ∀ m ∈ members, ∃ s : String, m.1 = Literal.encode s)
    (ih : ∀ m ∈ members, Cuts m.2) (found : List Token) :
    tokensFrom found (renderMembers members ++ rest) =
      tokensFrom ((memberTokens members).reverse ++ found) rest := by
  induction members generalizing found with
  | nil => simp [renderMembers, memberTokens]
  | cons m ms ihs =>
    obtain ⟨name, j⟩ := m
    obtain ⟨s, rfl⟩ : ∃ s : String, name = Literal.encode s := hname _ List.mem_cons_self
    have ihj : Cuts j := ih _ List.mem_cons_self
    cases ms with
    | nil =>
      rw [renderMembers, memberTokens, List.append_assoc, tokensFrom_quote, List.cons_append,
        tokensFrom_cons _ (by decide) rfl, ihj _ _ hr]
      simp
    | cons n ms =>
      rw [renderMembers, memberTokens, List.append_assoc, tokensFrom_quote, List.cons_append,
        tokensFrom_cons _ (by decide) rfl, List.append_assoc, List.cons_append,
        ihj _ _ (ends_comma _), tokensFrom_cons _ (by decide) rfl,
        ihs (fun l hl => hname l (List.mem_cons_of_mem _ hl))
          fun l hl => ih l (List.mem_cons_of_mem _ hl)]
      simp

theorem cuts {j : Json} (h : Written j) : Cuts j := by
  induction h with
  | null => exact fun found rest _ => (tokensFrom_word found rest).1
  | bool b =>
    cases b with
    | true => exact fun found rest _ => (tokensFrom_word found rest).2.1
    | false => exact fun found rest _ => (tokensFrom_word found rest).2.2
  | int i => exact fun found rest hr => tokensFrom_number found i hr
  | text s => exact fun found rest _ => tokensFrom_quote found s rest
  | @array items _ ih =>
    intro found rest _
    have hitems := tokensFrom_items (']' :: rest) (Numeral.ends_cons (by decide)) ih
      (.openArray :: found)
    rw [renderChars, List.cons_append, tokensFrom_cons found (by decide) rfl, List.append_assoc,
      List.singleton_append, hitems, tokensFrom_cons _ (by decide) rfl, tokensOf]
    simp
  | @object members hname _ ih =>
    intro found rest _
    have hmembers := tokensFrom_members ('\x7d' :: rest) (Numeral.ends_cons (by decide))
      hname ih (.openObject :: found)
    rw [renderChars, List.cons_append, tokensFrom_cons found (by decide) rfl, List.append_assoc,
      List.singleton_append, hmembers, tokensFrom_cons _ (by decide) rfl, tokensOf]
    simp

theorem tokens?_render {j : Json} (h : Written j) :
    tokens? (renderChars j) = some (tokensOf j) := by
  have hcuts := cuts h [] [] Numeral.ends_nil
  rw [List.append_nil] at hcuts
  rw [tokens?, hcuts, tokensFrom]
  simp

/-! ## The machine -/

theorem head?_tokensOf (j : Json) : (tokensOf j).head? ≠ some .closeArray := by
  cases j <;> simp [tokensOf]

/-- From the start of a value, the tokens of a tree amount to putting the tree. -/
def Puts (j : Json) : Prop :=
  ∀ (stack : List Open) (ts : List Token),
    (tokensOf j ++ ts).foldlM Machine.step ⟨stack, .value⟩ =
      (Machine.put stack j).bind fun m => ts.foldlM Machine.step m

theorem foldlM_valueOrEnd (j : Json) (stack : List Open) (ts : List Token) :
    (tokensOf j ++ ts).foldlM Machine.step ⟨stack, .valueOrEnd⟩ =
      (tokensOf j ++ ts).foldlM Machine.step ⟨stack, .value⟩ := by
  have hne := head?_tokensOf j
  cases htokens : tokensOf j with
  | nil => cases j <;> simp [tokensOf] at htokens
  | cons t us =>
    rw [htokens] at hne
    have ht : t ≠ .closeArray := by simpa using hne
    simp only [List.cons_append, List.foldlM_cons]
    rw [show Machine.step ⟨stack, .valueOrEnd⟩ t = Machine.step ⟨stack, .value⟩ t by
      simp [Machine.step, ht]]

theorem foldlM_items {items : List Json} (ih : ∀ j ∈ items, Puts j) (hne : items ≠ [])
    (done : List Json) (below : List Open) (ts : List Token) :
    (itemTokens items ++ ts).foldlM Machine.step ⟨.array done :: below, .value⟩ =
      ts.foldlM Machine.step ⟨.array (items.reverse ++ done) :: below, .commaOrEnd⟩ := by
  induction items generalizing done with
  | nil => exact absurd rfl hne
  | cons j js ihs =>
    have hj := ih j List.mem_cons_self
    cases js with
    | nil =>
      rw [itemTokens, hj]
      rfl
    | cons k js =>
      have hrest := ihs (fun l hl => ih l (List.mem_cons_of_mem _ hl)) (by simp) (j :: done)
      rw [itemTokens, List.append_assoc, hj, List.cons_append]
      simp only [Machine.put, Option.bind_some, List.foldlM_cons]
      apply Eq.trans hrest
      simp

theorem foldlM_members {members : List (List Char × Json)} (ih : ∀ m ∈ members, Puts m.2)
    (hne : members ≠ []) (done : List (List Char × Json)) (below : List Open) (ts : List Token) :
    (memberTokens members ++ ts).foldlM Machine.step ⟨.object done :: below, .name⟩ =
      ts.foldlM Machine.step ⟨.object (members.reverse ++ done) :: below, .commaOrEnd⟩ := by
  induction members generalizing done with
  | nil => exact absurd rfl hne
  | cons m ms ihs =>
    obtain ⟨name, j⟩ := m
    have hj := ih _ List.mem_cons_self (.member done name :: below)
    cases ms with
    | nil =>
      rw [memberTokens]
      exact Eq.trans (hj ts) rfl
    | cons n ms =>
      have hrest := ihs (fun l hl => ih l (List.mem_cons_of_mem _ hl)) (by simp)
        ((name, j) :: done)
      rw [memberTokens, List.cons_append, List.cons_append, List.append_assoc, List.cons_append]
      apply Eq.trans (hj _)
      apply Eq.trans hrest
      simp

/-- The machine puts the tokens of any written tree together to that tree. -/
theorem puts {j : Json} (h : Written j) : Puts j := by
  induction h with
  | null | bool b | int i | text s =>
    intro stack ts
    rfl
  | @array items _ ih =>
    intro stack ts
    rw [tokensOf]
    cases items with
    | nil => rfl
    | cons k ks =>
      have hitems := foldlM_items ih (by simp) [] stack (.closeArray :: ts)
      have hfirst : (itemTokens (k :: ks) ++ .closeArray :: ts).foldlM Machine.step
          ⟨.array [] :: stack, .valueOrEnd⟩ = (itemTokens (k :: ks) ++ .closeArray :: ts).foldlM
          Machine.step ⟨.array [] :: stack, .value⟩ := by
        cases ks with
        | nil =>
          rw [itemTokens]
          exact foldlM_valueOrEnd ..
        | cons l ks =>
          rw [itemTokens, List.append_assoc]
          exact foldlM_valueOrEnd ..
      rw [List.cons_append, List.append_assoc, List.singleton_append]
      refine Eq.trans hfirst (Eq.trans hitems ?_)
      simp only [List.append_nil, List.foldlM_cons, Machine.step, Machine.close,
        List.reverse_reverse, reduceCtorEq, if_false]
      rfl
  | @object members _ _ ih =>
    intro stack ts
    rw [tokensOf]
    cases members with
    | nil => rfl
    | cons m ms =>
      have hmembers := foldlM_members ih (by simp) [] stack (.closeObject :: ts)
      have hfirst : (memberTokens (m :: ms) ++ .closeObject :: ts).foldlM Machine.step
          ⟨.object [] :: stack, .nameOrEnd⟩ = (memberTokens (m :: ms) ++ .closeObject :: ts).foldlM
          Machine.step ⟨.object [] :: stack, .name⟩ := by
        obtain ⟨name, j⟩ := m
        cases ms <;> rfl
      rw [List.cons_append, List.append_assoc, List.singleton_append]
      refine Eq.trans hfirst (Eq.trans hmembers ?_)
      simp only [List.append_nil, List.foldlM_cons, Machine.step, Machine.close,
        List.reverse_reverse, reduceCtorEq, if_false]
      rfl

theorem ofTokens?_tokensOf {j : Json} (h : Written j) : ofTokens? (tokensOf j) = some j := by
  have hputs := puts h [] []
  rw [List.append_nil] at hputs
  simp [ofTokens?, hputs, Machine.put]

/-- **A written tree reads back from its text.** -/
theorem read?_render {j : Json} (h : Written j) : read? j.render = some j := by
  rw [read?, render, String.toList_ofList, tokens?_render h]
  exact ofTokens?_tokensOf h

end WatchHistory.Json
