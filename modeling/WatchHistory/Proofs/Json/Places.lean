import WatchHistory.Json.Value

/-!
# Places in JSON values

A place in a value is a way into it, through members of objects and items of arrays. A value that is
read is determined by what is at its places (`Value.Sorted.eq_of_shapeAt?`,
`Value.sorted_of_read?`), because the members of its objects ascend by name.

`Value.Erases` says of a change that it takes away what is at some places and nothing else. Two
values are the same after such a change exactly if they agree at every other place
(`Value.Erases.eq_iff`).
-/

set_option autoImplicit false

namespace WatchHistory.Json

/-- A step into a value. -/
inductive Step
  | member (name : String)
  | item (index : Nat)
deriving DecidableEq

def Step.isItem : Step → Bool
  | member _ => false
  | item _ => true

/-- What a value is by itself, without its parts. -/
inductive Shape
  | null
  | bool (value : Bool)
  | number (value : Number)
  | text (value : String)
  | array (length : Nat)
  | object
deriving DecidableEq

namespace Value

def shape : Value → Shape
  | null => .null
  | bool b => .bool b
  | number n => .number n
  | text s => .text s
  | array items => .array items.length
  | object _ => .object

/-- The part of a value that is one step into it. -/
def part? : Step → Value → Option Value
  | .member name, object members => (members.find? fun m => m.1 = name).map Prod.snd
  | .item index, array items => items[index]?
  | _, _ => none

/-- What is at a place in a value, if there is anything. -/
def shapeAt? : List Step → Value → Option Shape
  | [], v => some v.shape
  | step :: place, v => (part? step v).bind (shapeAt? place)

variable {v w : Value}

/-! ## Values that are read -/

/-- Whether the members of all objects in a value ascend by name. -/
inductive Sorted : Value → Prop
  | null : Sorted null
  | bool (b : Bool) : Sorted (bool b)
  | number (n : Number) : Sorted (number n)
  | text (s : String) : Sorted (text s)
  | array {items : List Value} (parts : ∀ v ∈ items, Sorted v) : Sorted (array items)
  | object {members : List (String × Value)} (ascending : members.Pairwise fun a b => a.1 < b.1)
      (parts : ∀ m ∈ members, Sorted m.2) : Sorted (object members)

theorem part?_member {members : List (String × Value)}
    (h : members.Pairwise fun a b => a.1 < b.1) (name : String) :
    part? (.member name) (object members) = SortedMap.get? ⟨members, h⟩ name := by
  unfold part? SortedMap.get?
  dsimp only
  congr 2
  funext m
  rw [Bool.eq_iff_iff, SortedMap.eq_of_not_lt, decide_eq_true_iff]

theorem mem_iff_part?_member {members : List (String × Value)}
    (h : members.Pairwise fun a b => a.1 < b.1) {name : String} :
    part? (.member name) (object members) = some v ↔ (name, v) ∈ members := by
  rw [part?_member h, ← SortedMap.mem_iff_get?]

theorem exists_part?_of_shapeAt? (h : ∀ place, shapeAt? place v = shapeAt? place w) {step : Step}
    {a : Value} (ha : part? step v = some a) :
    ∃ b, part? step w = some b ∧ ∀ place, shapeAt? place a = shapeAt? place b := by
  have hpart : ∀ place, shapeAt? place a = (part? step w).bind (shapeAt? place) := fun place => by
    rw [← show shapeAt? (step :: place) w = (part? step w).bind (shapeAt? place) from rfl, ← h,
      shapeAt?, ha]
    rfl
  cases hb : part? step w with
  | none =>
    have hshape := hpart []
    rw [hb] at hshape
    cases hshape
  | some b => exact ⟨b, rfl, fun place => by rw [hpart, hb]; rfl⟩

/-- A value whose members ascend is determined by what `shapeAt?` finds at its places. -/
theorem Sorted.eq_of_shapeAt? (hv : v.Sorted) (hw : w.Sorted)
    (h : ∀ place, shapeAt? place v = shapeAt? place w) : v = w := by
  have hshape : v.shape = w.shape := Option.some.inj (h [])
  induction hv generalizing w with
  | null => cases hw <;> first | rfl | cases hshape
  | bool b => cases hw <;> cases hshape; rfl
  | number n => cases hw <;> cases hshape; rfl
  | text s => cases hw <;> cases hshape; rfl
  | @array items _ ih =>
    cases hw with
    | @array items' parts =>
      have hlength : items.length = items'.length := Shape.array.inj hshape
      refine congrArg Value.array (List.ext_getElem? fun i => ?_)
      cases hitem : items[i]? with
      | none => rw [List.getElem?_eq_none (hlength ▸ List.getElem?_eq_none_iff.mp hitem)]
      | some a =>
        have hpart : part? (.item i) (Value.array items) = some a := hitem
        obtain ⟨b, hb, hsame⟩ := exists_part?_of_shapeAt? h hpart
        rw [show items'[i]? = some b from hb, ih a (List.mem_of_getElem? hitem)
          (parts b (List.mem_of_getElem? hb)) hsame (Option.some.inj (hsame []))]
    | _ => cases hshape
  | @object members ascending _ ih =>
    cases hw with
    | @object members' ascending' parts =>
      have hsame : ∀ {name a b}, (name, a) ∈ members → (name, b) ∈ members' →
          (∀ place, shapeAt? place a = shapeAt? place b) → a = b := fun ha hb hplaces =>
        ih _ ha (parts _ hb) hplaces (Option.some.inj (hplaces []))
      refine congrArg Value.object (SortedMap.entries_eq_of_mem ascending ascending' ?_)
      rintro ⟨name, a⟩
      constructor
      · intro ha
        obtain ⟨b, hb, hplaces⟩ :=
          exists_part?_of_shapeAt? h ((mem_iff_part?_member ascending).mpr ha)
        have hb := (mem_iff_part?_member ascending').mp hb
        exact hsame ha hb hplaces ▸ hb
      · intro hb
        obtain ⟨a', ha, hplaces⟩ := exists_part?_of_shapeAt? (fun place => (h place).symm)
          ((mem_iff_part?_member ascending').mpr hb)
        have ha := (mem_iff_part?_member ascending).mp ha
        exact hsame ha hb (fun place => (hplaces place).symm) ▸ ha
    | _ => cases hshape

mutual

theorem sorted_of_evaluate? : ∀ (j : Json) {v : Value}, evaluate? j = some v → v.Sorted
  | .null, _, h => by cases h; exact .null
  | .bool b, _, h => by cases h; exact .bool b
  | .number _, _, h => by
    obtain ⟨n, -, rfl⟩ := Option.map_eq_some_iff.mp h
    exact .number n
  | .text _, _, h => by
    obtain ⟨s, -, rfl⟩ := Option.map_eq_some_iff.mp h
    exact .text s
  | .array items, _, h => by
    obtain ⟨vs, hvs, rfl⟩ := Option.map_eq_some_iff.mp h
    exact .array (sorted_of_evaluateItems? items hvs)
  | .object members, _, h => by
    obtain ⟨ms, hms, rfl⟩ := Option.map_eq_some_iff.mp h
    obtain ⟨hascending, hparts⟩ := sorted_of_evaluateMembers? members .nil nofun hms
    exact .object hascending hparts

theorem sorted_of_evaluateItems? : ∀ (js : List Json) {vs : List Value},
    evaluateItems? js = some vs → ∀ v ∈ vs, v.Sorted
  | [], _, h => by cases h; nofun
  | j :: js, _, h => by
    obtain ⟨v, hv, h⟩ := Option.bind_eq_some_iff.mp h
    obtain ⟨vs, hvs, h⟩ := Option.bind_eq_some_iff.mp h
    cases h
    exact List.forall_mem_cons.mpr ⟨sorted_of_evaluate? j hv, sorted_of_evaluateItems? js hvs⟩

theorem sorted_of_evaluateMembers? : ∀ (ms : List (List Char × Json))
    {earlier found : List (String × Value)}, (earlier.Pairwise fun a b => a.1 < b.1) →
    (∀ m ∈ earlier, m.2.Sorted) → evaluateMembers? ms earlier = some found →
    (found.Pairwise fun a b => a.1 < b.1) ∧ ∀ m ∈ found, m.2.Sorted
  | [], _, _, hascending, hparts, h => by cases h; exact ⟨hascending, hparts⟩
  | (name, j) :: ms, earlier, _, hascending, hparts, h => by
    obtain ⟨decoded, -, h⟩ := Option.bind_eq_some_iff.mp h
    obtain ⟨v, hv, h⟩ := Option.bind_eq_some_iff.mp h
    have hsorted := sorted_of_evaluate? j hv
    refine sorted_of_evaluateMembers? ms (SortedMap.pairwise_insertEntry hascending) ?_ h
    intro m hm
    rcases SortedMap.mem_of_mem_insertEntry hm with rfl | hm
    · exact hsorted
    · exact hparts m hm

end

theorem sorted_of_read? {text : String} (h : read? text = some v) : v.Sorted := by
  obtain ⟨j, -, h⟩ := Option.bind_eq_some_iff.mp h
  split at h
  · exact sorted_of_evaluate? j h
  · cases h

/-! ## Changes -/

theorem shape_without (name : String) (v : Value) : (v.without name).shape = v.shape := by
  cases v <;> rfl

theorem shape_changeMember (name : String) (change : Value → Value) (v : Value) :
    (v.changeMember name change).shape = v.shape := by
  cases v <;> rfl

theorem shape_changeItems (change : Value → Value) (v : Value) :
    (v.changeItems change).shape = v.shape := by
  cases v with
  | array items => exact congrArg Shape.array (List.length_map change)
  | _ => rfl

theorem part?_without (name : String) (step : Step) (v : Value) :
    part? step (v.without name) = if step = .member name then none else part? step v := by
  cases v with
  | object members =>
    cases step with
    | member other =>
      unfold without part?
      dsimp only
      simp only [List.find?_filter, Step.member.injEq]
      split
      · next hsame =>
        rw [List.find?_eq_none.mpr fun m _ => by simp [hsame]]
        rfl
      · next hne =>
        congr 2
        funext m
        by_cases hm : m.1 = other
        · simp [hm, hne]
        · simp [hm]
    | item index => rfl
  | _ => cases step <;> simp [without, part?]

theorem part?_changeMember (name : String) (change : Value → Value) (step : Step) (v : Value) :
    part? step (v.changeMember name change) =
      if step = .member name then (part? step v).map change else part? step v := by
  cases v with
  | object members =>
    cases step with
    | member other =>
      have hkeep : ((fun m : String × Value => decide (m.1 = other)) ∘
          fun m => if m.1 = name then (m.1, change m.2) else m) =
          fun m => decide (m.1 = other) := by
        funext m
        dsimp only [Function.comp]
        split <;> rfl
      unfold changeMember part?
      dsimp only
      simp only [List.find?_map, hkeep, Step.member.injEq]
      cases hfound : members.find? fun m => decide (m.1 = other) with
      | none => simp
      | some m =>
        have hm := List.find?_some hfound
        obtain rfl : m.1 = other := of_decide_eq_true hm
        simp only [Option.map_some]
        split <;> rfl
    | item index => rfl
  | _ => cases step <;> simp [changeMember, part?]

theorem part?_changeItems (change : Value → Value) (step : Step) (v : Value) :
    part? step (v.changeItems change) =
      if step.isItem then (part? step v).map change else part? step v := by
  cases v with
  | array items => cases step <;> simp [changeItems, part?, Step.isItem]
  | _ => cases step <;> simp [changeItems, part?, Step.isItem]

/-- Whether a change takes away what is at some places, and leaves what is at all others. -/
structure Erases (change : Value → Value) (gone : List Step → Prop) : Prop where
  none_of_gone : ∀ v place, gone place → shapeAt? place (change v) = none
  same_of_not : ∀ v place, ¬ gone place → shapeAt? place (change v) = shapeAt? place v

/-- Whether two values have the same at every place but some. -/
def AgreeBut (gone : List Step → Prop) (v w : Value) : Prop :=
  ∀ place, ¬ gone place → shapeAt? place v = shapeAt? place w

namespace Erases

variable {change change' : Value → Value} {gone gone' : List Step → Prop}

theorem without (name : String) :
    Erases (fun v => v.without name) fun place => [.member name] <+: place := by
  constructor
  · rintro v place ⟨rest, rfl⟩
    show (part? (.member name) (v.without name)).bind (shapeAt? rest) = none
    rw [part?_without, if_pos rfl]
    rfl
  · intro v place hplace
    cases place with
    | nil => exact congrArg some (shape_without name v)
    | cons step rest =>
      show (part? step (v.without name)).bind (shapeAt? rest) = _
      rw [part?_without, if_neg fun hstep => hplace ⟨rest, by rw [hstep]; rfl⟩]
      rfl

/-- What is taken away from the parts of a value is taken away from the whole. -/
theorem of_parts {whole : Value → Value} {changed : Step → Prop} [DecidablePred changed]
    (h : Erases change gone) (hshape : ∀ v, (whole v).shape = v.shape)
    (hpart : ∀ step v, part? step (whole v) =
      if changed step then (part? step v).map change else part? step v) :
    Erases whole fun place => ∃ step rest, place = step :: rest ∧ changed step ∧ gone rest := by
  constructor
  · rintro v place ⟨step, rest, rfl, hstep, hgone⟩
    show (part? step (whole v)).bind (shapeAt? rest) = none
    rw [hpart, if_pos hstep, Option.bind_map]
    exact Option.bind_eq_none_iff.mpr fun part _ => h.none_of_gone part rest hgone
  · intro v place hplace
    cases place with
    | nil => exact congrArg some (hshape v)
    | cons step rest =>
      show (part? step (whole v)).bind (shapeAt? rest) = (part? step v).bind (shapeAt? rest)
      rw [hpart]
      split
      · next hstep =>
        have hrest : ¬ gone rest := fun hgone => hplace ⟨step, rest, rfl, hstep, hgone⟩
        rw [Option.bind_map, show shapeAt? rest ∘ change = shapeAt? rest from
          funext fun part => h.same_of_not part rest hrest]
      · rfl

theorem congr (h : Erases change gone) (hsame : ∀ place, gone place ↔ gone' place) :
    Erases change gone' :=
  (funext fun place => propext (hsame place) : gone = gone') ▸ h

theorem changeMember (h : Erases change gone) (name : String) :
    Erases (fun v => v.changeMember name change)
      fun place => ∃ rest, place = .member name :: rest ∧ gone rest := by
  refine (h.of_parts (shape_changeMember name change) (part?_changeMember name change)).congr
    fun place => ?_
  constructor
  · rintro ⟨_, rest, rfl, rfl, hgone⟩
    exact ⟨rest, rfl, hgone⟩
  · rintro ⟨rest, rfl, hgone⟩
    exact ⟨_, rest, rfl, rfl, hgone⟩

theorem changeItems (h : Erases change gone) :
    Erases (fun v => v.changeItems change)
      fun place => ∃ index rest, place = .item index :: rest ∧ gone rest := by
  refine (h.of_parts (shape_changeItems change) (part?_changeItems change)).congr fun place => ?_
  constructor
  · rintro ⟨step, rest, rfl, hstep, hgone⟩
    cases step with
    | member name => cases hstep
    | item index => exact ⟨index, rest, rfl, hgone⟩
  · rintro ⟨index, rest, rfl, hgone⟩
    exact ⟨_, rest, rfl, rfl, hgone⟩

theorem comp (h : Erases change gone) (h' : Erases change' gone') :
    Erases (fun v => change' (change v)) fun place => gone place ∨ gone' place := by
  constructor
  · intro v place hplace
    by_cases hgone' : gone' place
    · exact h'.none_of_gone _ place hgone'
    · rw [h'.same_of_not _ place hgone']
      exact h.none_of_gone v place (hplace.resolve_right hgone')
  · intro v place hplace
    rw [h'.same_of_not _ place fun hgone' => hplace (.inr hgone')]
    exact h.same_of_not v place fun hgone => hplace (.inl hgone)

/-- Values are the same after what is at some places is taken away exactly if they agree at all
others. -/
theorem eq_iff (h : Erases change gone) (hv : (change v).Sorted) (hw : (change w).Sorted) :
    change v = change w ↔ AgreeBut gone v w := by
  constructor
  · intro heq place hplace
    rw [← h.same_of_not v place hplace, heq, h.same_of_not w place hplace]
  · refine fun hagree => hv.eq_of_shapeAt? hw fun place => ?_
    by_cases hplace : gone place
    · rw [h.none_of_gone v place hplace, h.none_of_gone w place hplace]
    · rw [h.same_of_not v place hplace, h.same_of_not w place hplace]
      exact hagree place hplace

end Erases

namespace Sorted

variable {change : Value → Value}

theorem without (h : v.Sorted) (name : String) : (v.without name).Sorted := by
  cases h with
  | object ascending parts =>
    exact .object (ascending.filter _) fun m hm => parts m (List.mem_filter.mp hm).1
  | array parts => exact .array parts
  | _ => constructor

theorem changeMember (h : v.Sorted) (hchange : ∀ w : Value, w.Sorted → (change w).Sorted)
    (name : String) : (v.changeMember name change).Sorted := by
  cases h with
  | object ascending parts =>
    refine .object (List.pairwise_map.mpr (ascending.imp fun {a b} hlt => ?_)) fun m hm => ?_
    · split <;> split <;> exact hlt
    · obtain ⟨m', hm', rfl⟩ := List.mem_map.mp hm
      split
      · exact hchange _ (parts m' hm')
      · exact parts m' hm'
  | array parts => exact .array parts
  | _ => constructor

theorem changeItems (h : v.Sorted) (hchange : ∀ w : Value, w.Sorted → (change w).Sorted) :
    (v.changeItems change).Sorted := by
  cases h with
  | array parts =>
    refine .array fun w hw => ?_
    obtain ⟨w', hw', rfl⟩ := List.mem_map.mp hw
    exact hchange _ (parts w' hw')
  | object ascending parts => exact .object ascending parts
  | _ => constructor

end Sorted

end Value

end WatchHistory.Json
