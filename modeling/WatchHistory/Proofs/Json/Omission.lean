import Mathlib.Data.List.Forall2
import WatchHistory.Json.Decode
import WatchHistory.Proofs.Json.Places
import WatchHistory.Proofs.Json.RoundTrip

/-!
# Members that are null or left out

The members at some places in a tree can be given as null (`giveNull`) or left out (`leaveOut`). A
reader is indifferent to the choice if both trees tell it the same, whatever places are chosen
(`Indifferent`). No object may repeat a member (`Distinct`): two nulls of one name are a repetition,
while nothing is left of two members that are left out.

* `fields?_alike`: the slots that a record is read from differ in no more than a null that is
  missing, `Slot.Alike`.
* `Slot.Alike.nullable?`: a field that may be missing or null does not tell such slots apart.
* `Indifferent.record`, `Indifferent.list?`, `Indifferent.nullAs?`: so a reader that is put together
  from indifferent ones is indifferent.
-/

set_option autoImplicit false

namespace WatchHistory.Json

/-! ## Editing members -/

/-- The places behind a step. -/
def within (places : List Step → Bool) (step : Step) : List Step → Bool :=
  fun place => places (step :: place)

mutual

/-- The tree with the members at the given places replaced by `value`, or left out if there is
none. A member is found by what its literal stands for. -/
def edit (value : Option Json) (places : List Step → Bool) : Json → Json
  | .array items => .array (editItems value places 0 items)
  | .object members => .object (editMembers value places members)
  | j => j

/-- Edit the items of an array from the one with the given index. -/
def editItems (value : Option Json) (places : List Step → Bool) (index : Nat) :
    List Json → List Json
  | [] => []
  | j :: js =>
    edit value (within places (.item index)) j :: editItems value places (index + 1) js

def editMembers (value : Option Json) (places : List Step → Bool) :
    List (List Char × Json) → List (List Char × Json)
  | [] => []
  | (literal, j) :: ms =>
    match Literal.decode? literal with
    | none => (literal, j) :: editMembers value places ms
    | some name =>
      let edited := if places [.member name] then value
        else some (edit value (within places (.member name)) j)
      (edited.map fun v => (literal, v)).toList ++ editMembers value places ms

end

/-- The tree with the members at the given places null. -/
def giveNull (places : List Step → Bool) (j : Json) : Json := edit (some .null) places j

/-- The tree without the members at the given places. -/
def leaveOut (places : List Step → Bool) (j : Json) : Json := edit none places j

/-- Whether no object in a tree has two members whose literals stand for the same name. -/
inductive Distinct : Json → Prop
  | null : Distinct .null
  | bool (b : Bool) : Distinct (.bool b)
  | number (n : Numeral) : Distinct (.number n)
  | text (literal : List Char) : Distinct (.text literal)
  | array {items : List Json} (parts : ∀ j ∈ items, Distinct j) : Distinct (.array items)
  | object {members : List (List Char × Json)}
      (names : members.Pairwise fun a b =>
        Literal.decode? a.1 = none ∨ Literal.decode? a.1 ≠ Literal.decode? b.1)
      (parts : ∀ m ∈ members, Distinct m.2) : Distinct (.object members)

theorem editItems_eq_mapIdx (value : Option Json) (places : List Step → Bool) (index : Nat)
    (items : List Json) : editItems value places index items =
      items.mapIdx fun i j => edit value (within places (.item (index + i))) j := by
  induction items generalizing index with
  | nil => rfl
  | cons j js ih =>
    rw [editItems, ih, List.mapIdx_cons]
    simp only [Nat.add_zero, Nat.add_assoc, Nat.add_comm 1]

theorem mem_editMembers {value : Option Json} {places : List Step → Bool}
    {members : List (List Char × Json)} {m : List Char × Json}
    (h : m ∈ editMembers value places members) :
    ∃ j, (m.1, j) ∈ members ∧
      (m.2 = j ∨ value = some m.2 ∨ ∃ places', m.2 = edit value places' j) := by
  induction members with
  | nil => cases h
  | cons first ms ih =>
    obtain ⟨literal, j⟩ := first
    have htail (h : m ∈ editMembers value places ms) : ∃ j', (m.1, j') ∈ (literal, j) :: ms ∧
        (m.2 = j' ∨ value = some m.2 ∨ ∃ places', m.2 = edit value places' j') := by
      obtain ⟨j', hmem, hj'⟩ := ih h
      exact ⟨j', List.mem_cons_of_mem _ hmem, hj'⟩
    rw [editMembers] at h
    split at h
    · obtain rfl | h := List.mem_cons.mp h
      · exact ⟨j, List.mem_cons_self, .inl rfl⟩
      · exact htail h
    · next name _ =>
      obtain h | h := List.mem_append.mp h
      · obtain ⟨v, hv, rfl⟩ := Option.map_eq_some_iff.mp (Option.mem_toList.mp h)
        refine ⟨j, List.mem_cons_self, ?_⟩
        split at hv
        · exact .inr (.inl hv)
        · exact .inr (.inr ⟨_, (Option.some.inj hv).symm⟩)
      · exact htail h

theorem Written.edit {value : Option Json} (hvalue : ∀ v ∈ value, Written v) {j : Json}
    (h : Written j) (places : List Step → Bool) : Written (edit value places j) := by
  induction h generalizing places with
  | null => exact .null
  | bool b => exact .bool b
  | int i => exact .int i
  | text s => exact .text s
  | @array items _ ih =>
    rw [Json.edit, editItems_eq_mapIdx]
    refine .array fun j hj => ?_
    obtain ⟨i, hi, rfl⟩ := List.mem_mapIdx.mp hj
    exact ih _ (List.getElem_mem hi) _
  | @object members hname h ih =>
    rw [Json.edit]
    refine .object (fun m hm => ?_) fun m hm => ?_
    · obtain ⟨j, hmem, -⟩ := mem_editMembers hm
      exact hname (m.1, j) hmem
    · obtain ⟨j, hmem, hsame | hput | ⟨places', hedited⟩⟩ := mem_editMembers hm
      · exact hsame ▸ h _ hmem
      · exact hvalue _ hput
      · exact hedited ▸ ih _ hmem _

theorem Written.giveNull {j : Json} (h : Written j) (places : List Step → Bool) :
    Written (giveNull places j) :=
  h.edit (by simp [Written.null]) places

theorem Written.leaveOut {j : Json} (h : Written j) (places : List Step → Bool) :
    Written (leaveOut places j) :=
  h.edit (by simp) places

theorem distinct_ofMembers {members : List (String × Json)}
    (h : members.Pairwise fun a b => a.1 ≠ b.1) (parts : ∀ m ∈ members, m.2.Distinct) :
    (ofMembers members).Distinct := by
  refine .object (List.pairwise_map.mpr ?_) fun m hm => ?_
  · refine h.imp fun {a b} hne => .inr ?_
    rw [Literal.decode?_encode, Literal.decode?_encode]
    exact fun hsame => hne (Option.some.inj hsame)
  · obtain ⟨n, hn, rfl⟩ := List.mem_map.mp hm
    exact parts n hn

/-! ## Members by name -/

/-- The members of an object with the names that their literals stand for. -/
def named? (members : List (List Char × Json)) : Option (List (String × Json)) :=
  members.mapM fun m => (Literal.decode? m.1).map fun name => (name, m.2)

theorem named?_cons (literal : List Char) (j : Json) (ms : List (List Char × Json)) :
    named? ((literal, j) :: ms) =
      (Literal.decode? literal).bind fun name => (named? ms).map ((name, j) :: ·) := by
  unfold named?
  rw [List.mapM_cons]
  cases Literal.decode? literal with
  | none => rfl
  | some name => exact Option.map_eq_bind.symm

/-- What becomes of a member. -/
def editMember? (value : Option Json) (places : List Step → Bool) (name : String) (j : Json) :
    Option Json :=
  if places [.member name] then value else some (edit value (within places (.member name)) j)

/-- What becomes of members with their names. -/
def editNamed (value : Option Json) (places : List Step → Bool) (named : List (String × Json)) :
    List (String × Json) :=
  named.filterMap fun m => (editMember? value places m.1 m.2).map fun v => (m.1, v)

theorem editNamed_cons (value : Option Json) (places : List Step → Bool) (m : String × Json)
    (named : List (String × Json)) : editNamed value places (m :: named) =
      ((editMember? value places m.1 m.2).map fun v => (m.1, v)).toList ++
        editNamed value places named := by
  unfold editNamed
  rw [List.filterMap_cons]
  cases editMember? value places m.1 m.2 <;> rfl

/-- Names are not edited: the members of an edited object are what its members have become. -/
theorem named?_editMembers (value : Option Json) (places : List Step → Bool)
    (members : List (List Char × Json)) : named? (editMembers value places members) =
      (named? members).map (editNamed value places) := by
  induction members with
  | nil => rfl
  | cons m ms ih =>
    obtain ⟨literal, j⟩ := m
    cases hname : Literal.decode? literal with
    | none => simp only [editMembers, named?_cons, hname, Option.bind_none, Option.map_none]
    | some name =>
      have hedited : editMembers value places ((literal, j) :: ms) =
          ((editMember? value places name j).map fun v => (literal, v)).toList ++
            editMembers value places ms := by
        simp only [editMembers, hname, editMember?]
      rw [hedited, named?_cons, hname, Option.bind_some, Option.map_map, Function.comp_def]
      simp only [editNamed_cons]
      cases editMember? value places name j with
      | none => exact ih
      | some v =>
        rw [Option.map_some, Option.toList_some, List.singleton_append, named?_cons, hname, ih,
          Option.bind_some, Option.map_map]
        rfl

theorem filter_editNamed (value : Option Json) (places : List Step → Bool) (name : String)
    (named : List (String × Json)) :
    (editNamed value places named).filter (fun m => m.1 = name) =
      editNamed value places (named.filter fun m => m.1 = name) := by
  unfold editNamed
  rw [List.filter_filterMap, List.filterMap_filter]
  refine congrArg (List.filterMap · named) (funext fun m => ?_)
  cases editMember? value places m.1 m.2 with
  | none => simp
  | some v => simp [Option.filter_some]

theorem map_of_named? {members : List (List Char × Json)} {named : List (String × Json)}
    (h : named? members = some named) :
    members.map (fun m => (Literal.decode? m.1, m.2)) = named.map fun m => (some m.1, m.2) := by
  induction members generalizing named with
  | nil =>
    cases h
    rfl
  | cons m ms ih =>
    obtain ⟨literal, j⟩ := m
    rw [named?_cons, Option.bind_eq_some_iff] at h
    obtain ⟨name, hname, h⟩ := h
    obtain ⟨rest, hrest, rfl⟩ := Option.map_eq_some_iff.mp h
    rw [List.map_cons, List.map_cons, ih hrest, hname]

theorem Distinct.named {members : List (List Char × Json)} {named : List (String × Json)}
    (h : (Json.object members).Distinct) (hnamed : named? members = some named) :
    named.Pairwise (fun a b => a.1 ≠ b.1) ∧ ∀ m ∈ named, m.2.Distinct := by
  cases h with
  | object names parts =>
    have hmap := map_of_named? hnamed
    constructor
    · have hpairwise : (members.map fun m => (Literal.decode? m.1, m.2)).Pairwise
          fun a b => a.1 = none ∨ a.1 ≠ b.1 := List.pairwise_map.mpr names
      rw [hmap, List.pairwise_map] at hpairwise
      exact hpairwise.imp fun {a b} hne => by simpa using hne
    · have hparts : ∀ m ∈ members.map fun m => (Literal.decode? m.1, m.2), m.2.Distinct :=
        List.forall_mem_map.mpr parts
      rw [hmap] at hparts
      exact fun m hm => hparts _ (List.mem_map_of_mem hm)

theorem filter_of_pairwise {named : List (String × Json)} (h : named.Pairwise fun a b => a.1 ≠ b.1)
    (name : String) : (named.filter fun m => m.1 = name) = [] ∨
      ∃ j, (name, j) ∈ named ∧ (named.filter fun m => m.1 = name) = [(name, j)] := by
  have hname : ∀ m ∈ named.filter fun m => m.1 = name, m ∈ named ∧ m.1 = name := fun m hm =>
    ⟨(List.mem_filter.mp hm).1, of_decide_eq_true (List.mem_filter.mp hm).2⟩
  have hpairwise := h.filter fun m => m.1 = name
  cases hfilter : named.filter fun m => m.1 = name with
  | nil => exact .inl rfl
  | cons m ms =>
    rw [hfilter] at hname hpairwise
    obtain ⟨hmem, rfl⟩ := hname m List.mem_cons_self
    cases ms with
    | nil => exact .inr ⟨m.2, hmem, rfl⟩
    | cons n ms =>
      have hn := (hname n (by simp)).2
      exact absurd hn.symm (List.rel_of_pairwise_cons hpairwise List.mem_cons_self)

/-! ## Slots -/

/-- Whether slots differ in no more than a null that is missing, or in what members of their values
are null or left out. -/
inductive Slot.Alike : Slot → Slot → Prop
  | absent (positional : Bool) : Alike ⟨positional, none⟩ ⟨positional, none⟩
  | missing : Alike ⟨false, some .null⟩ ⟨false, none⟩
  | given (positional : Bool) (places : List Step → Bool) {j : Json} (h : j.Distinct) :
      Alike ⟨positional, some (giveNull places j)⟩ ⟨positional, some (leaveOut places j)⟩

theorem member?_alike {members : List (List Char × Json)} {named : List (String × Json)}
    (h : (Json.object members).Distinct) (hnamed : named? members = some named)
    (places : List Step → Bool) (name : String) :
    Option.Rel Slot.Alike (member? (editNamed (some .null) places named) name)
      (member? (editNamed none places named) name) := by
  obtain ⟨hpairwise, hparts⟩ := h.named hnamed
  unfold member?
  rw [filter_editNamed, filter_editNamed]
  obtain hnone | ⟨j, hmem, hone⟩ := filter_of_pairwise hpairwise name
  · rw [hnone]
    exact .some (.absent false)
  · rw [hone]
    by_cases hplace : places [.member name] = true
    · simp only [editNamed, editMember?, hplace, if_true, List.filterMap_cons, Option.map_some,
        Option.map_none, List.filterMap_nil]
      exact .some .missing
    · simp only [editNamed, editMember?, hplace, List.filterMap_cons, List.filterMap_nil]
      exact .some (.given false _ (hparts _ hmem))

theorem mapM_rel {α β : Type} {R : β → β → Prop} {f g : α → Option β} (as : List α)
    (h : ∀ a, Option.Rel R (f a) (g a)) :
    Option.Rel (List.Forall₂ R) (as.mapM f) (as.mapM g) := by
  induction as with
  | nil => exact .some .nil
  | cons a as ih =>
    have hhead := h a
    rw [List.mapM_cons, List.mapM_cons]
    generalize f a = x, g a = y, as.mapM f = xs, as.mapM g = ys at hhead ih ⊢
    cases hhead with
    | none => exact .none
    | some hhead =>
      cases ih with
      | none => exact .none
      | some htail => exact .some (.cons hhead htail)

/-- The slots that `fields?` finds are alike, whether some members of the record are null or left
out. -/
theorem fields?_alike (names : List String) (places : List Step → Bool) {j : Json}
    (h : j.Distinct) : Option.Rel (List.Forall₂ Slot.Alike) (fields? names (giveNull places j))
      (fields? names (leaveOut places j)) := by
  cases h with
  | @object members hnames hparts =>
    have hfields : ∀ ms, fields? names (.object ms) =
        (named? ms).bind fun named => names.mapM (member? named) := fun _ => rfl
    rw [giveNull, leaveOut, edit, edit, hfields, hfields, named?_editMembers, named?_editMembers]
    cases hnamed : named? members with
    | none => exact .none
    | some named => exact mapM_rel names (member?_alike (.object hnames hparts) hnamed places)
  | @array items hparts =>
    rw [giveNull, leaveOut, edit, edit, editItems_eq_mapIdx, editItems_eq_mapIdx]
    unfold fields?
    simp only [List.length_mapIdx, List.getElem?_mapIdx]
    split
    · refine .some (List.forall₂_map_left_iff.mpr (List.forall₂_map_right_iff.mpr
        (List.forall₂_same.mpr fun i _ => ?_)))
      cases hitem : items[i]? with
      | none => exact .absent true
      | some j => exact .given true _ (hparts j (List.mem_of_getElem? hitem))
    · exact .none
  | _ => exact .none

/-! ## Readers -/

/-- Whether a reader reads the same whether members at some places are null or left out. -/
def Indifferent {α : Type} (read : Json → Option α) : Prop :=
  ∀ (places : List Step → Bool) (j : Json), j.Distinct →
    read (giveNull places j) = read (leaveOut places j)

theorem indifferent_string? : Indifferent string? := by
  intro places j _
  cases j <;> rfl

theorem indifferent_int? : Indifferent int? := by
  intro places j _
  cases j <;> rfl

namespace Indifferent

variable {α : Type} {read : Json → Option α}

theorem nullAs? (h : Indifferent read) (initial : α) : Indifferent (nullAs? initial read) := by
  intro places j hj
  cases j with
  | array items => exact h places _ hj
  | object members => exact h places _ hj
  | _ => rfl

theorem optional? (h : Indifferent read) : Indifferent (optional? read) := by
  intro places j hj
  cases j with
  | array items => exact congrArg (Option.map some) (h places _ hj)
  | object members => exact congrArg (Option.map some) (h places _ hj)
  | _ => rfl

theorem mapM_editItems (h : Indifferent read) {items : List Json}
    (hparts : ∀ j ∈ items, j.Distinct) (places : List Step → Bool) (index : Nat) :
    (editItems (some .null) places index items).mapM read =
      (editItems none places index items).mapM read := by
  induction items generalizing index with
  | nil => rfl
  | cons j js ih =>
    obtain ⟨hj, hjs⟩ := List.forall_mem_cons.mp hparts
    have hread : read (edit (some .null) (within places (.item index)) j) =
        read (edit none (within places (.item index)) j) := h _ j hj
    rw [editItems, editItems, List.mapM_cons, List.mapM_cons, hread, ih hjs]

theorem list? (h : Indifferent read) : Indifferent (list? read) := by
  intro places j hj
  cases hj with
  | array hparts => exact h.mapM_editItems hparts places 0
  | _ => rfl

/-- A record is read indifferently if it is read the same out of slots that are alike. -/
theorem record {k : List Slot → Option α} (names : List String)
    (hk : ∀ slots slots', List.Forall₂ Slot.Alike slots slots' → k slots = k slots') :
    Indifferent fun j => fields? names j >>= k := by
  intro places j hj
  have hfields := fields?_alike names places hj
  dsimp only
  generalize fields? names (giveNull places j) = x, fields? names (leaveOut places j) = y at hfields
  cases hfields with
  | none => rfl
  | some hslots => exact hk _ _ hslots

end Indifferent

namespace Slot.Alike

variable {α : Type} {read : Json → Option α} {s t : Slot}

theorem default? (h : Alike s t) {initial : α} (hread : Indifferent read)
    (hnull : read .null = some initial) : s.default? initial read = t.default? initial read := by
  cases h with
  | absent => rfl
  | missing => exact hnull
  | given _ places hj => exact hread places _ hj

theorem nullable? (h : Alike s t) (hread : Indifferent read) (initial : α) :
    s.nullable? initial read = t.nullable? initial read :=
  h.default? (hread.nullAs? initial) rfl

end Slot.Alike

end WatchHistory.Json
