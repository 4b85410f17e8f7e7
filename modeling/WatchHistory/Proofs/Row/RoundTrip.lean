import WatchHistory.Proofs.Instant.RoundTrip
import WatchHistory.Proofs.Json.RoundTrip
import WatchHistory.Proofs.SortedMap
import WatchHistory.Row.Basic

/-!
# Stored rows read back

`Table.read?_write`: the text of a row reads back as the row if all its whole numbers fit into the
signed 64-bit fields that they are stored in (`Table.representable`), and as nothing otherwise. So
no text of a row is ever read as another row (`Table.eq_of_read?_write`).
-/

set_option autoImplicit false

namespace WatchHistory

/-! ## Which rows are representable -/

def Activity.representable (a : Activity) : Bool :=
  a.changedAt.all Decimal.fits && a.noChangeAt.all Decimal.fits

def EventTally.representableReasons (counts : ReasonCounts) : Bool :=
  counts.entries.all fun e => Decimal.fits e.2

def EventTally.representableMinutes (minutes : SortedMap Int ReasonCounts) : Bool :=
  minutes.entries.all fun e => Decimal.fits e.1 && representableReasons e.2

def EventTally.representable (t : EventTally) : Bool :=
  match t.byMinute with
  | none => true
  | some minutes => representableMinutes minutes

/-- Whether the whole numbers of a row fit into 64 bits. -/
def Table.representable : (t : Table) → t.Row → Bool
  | .watch, _ | .summary, _ | .relation, _ => true
  | .eventCount, row => EventTally.representable row
  | .activity, row => Activity.representable row

/-! ## Values -/

namespace Json

@[simp] theorem string?_ofText (s : String) : (ofText s).string? = some s :=
  Literal.decode?_encode s

theorem int?_ofInt (i : Int) : (ofInt i).int? = if Decimal.fits i then some i else none :=
  Numeral.int?_ofInt i

/-- Reading written items one by one gives the items, if each of them reads back. -/
theorem mapM_map {α β γ : Type} (read : β → Option γ) (write : α → β) (view : α → γ) (p : α → Bool)
    (h : ∀ a, read (write a) = if p a then some (view a) else none) (as : List α) :
    (as.map write).mapM read = if as.all p then some (as.map view) else none := by
  induction as with
  | nil => rfl
  | cons a as ih =>
    rw [List.map_cons, List.mapM_cons, h, ih]
    cases ha : p a <;> cases has : as.all p <;> simp [ha, has]

theorem list?_int (is : List Int) :
    list? int? (.array (is.map ofInt)) = if is.all Decimal.fits then some is else none := by
  simpa [list?] using mapM_map int? ofInt id Decimal.fits int?_ofInt is

theorem list?_text (ss : List String) : list? string? (.array (ss.map ofText)) = some ss := by
  simpa [list?] using
    mapM_map string? ofText id (fun _ => true) (fun s => by simp) ss

theorem map?_entries {κ ν : Type} [StrictOrder κ] (key : List Char → Option κ)
    (read : Json → Option ν) (name : κ → List Char) (write : ν → Json) (p : κ × ν → Bool)
    (h : ∀ e : κ × ν, (do return ((← key (name e.1)), (← read (write e.2))) : Option (κ × ν)) =
      if p e then some e else none) (m : SortedMap κ ν) :
    map? key read (.object (m.entries.map fun e => (name e.1, write e.2))) =
      if m.entries.all p then some m else none := by
  have hmap := mapM_map
    (fun m : List Char × Json => (do return ((← key m.1), (← read m.2)) : Option (κ × ν)))
    (fun e : κ × ν => (name e.1, write e.2)) id p h m.entries
  unfold map?
  dsimp only
  rw [hmap]
  split
  · simp [SortedMap.ofList_entries]
  · rfl

theorem fields?_ofMembers (names : List String) (members : List (String × Json)) :
    (ofMembers members).fields? names = names.mapM (member? members) := by
  have hnames := mapM_map (fun m : List Char × Json =>
      (Literal.decode? m.1).map fun name => (name, m.2))
    (fun m : String × Json => (Literal.encode m.1, m.2)) id (fun _ => true)
    (fun m => by simp [Literal.decode?_encode]) members
  rw [List.all_eq_true.mpr fun _ _ => rfl, if_pos rfl, List.map_id] at hnames
  simp only [fields?, ofMembers]
  rw [hnames]
  rfl

theorem written_ofMembers {members : List (String × Json)} (h : ∀ m ∈ members, Written m.2) :
    Written (ofMembers members) := by
  refine .object ?_ ?_ <;> intro m hm <;> obtain ⟨n, hn, rfl⟩ := List.mem_map.mp hm
  · exact ⟨n.1, rfl⟩
  · exact h n hn

theorem written_array {α : Type} {write : α → Json} (h : ∀ a, Written (write a)) (as : List α) :
    Written (.array (as.map write)) := by
  refine .array fun j hj => ?_
  obtain ⟨a, -, rfl⟩ := List.mem_map.mp hj
  exact h a

theorem written_object {α : Type} {name : α → List Char} {write : α → Json}
    (hname : ∀ a, ∃ s : String, name a = Literal.encode s) (h : ∀ a, Written (write a))
    (as : List α) : Written (.object (as.map fun a => (name a, write a))) := by
  refine .object ?_ ?_ <;> intro m hm <;> obtain ⟨a, -, rfl⟩ := List.mem_map.mp hm
  · exact hname a
  · exact h a

/-! ## Whole numbers as names -/

theorem encodeChar_of_isDigit {c : Char} (h : c = '-' ∨ c.isDigit = true) :
    Literal.encodeChar c = [c] := by
  have hcode : 45 ≤ c.toNat ∧ c.toNat ≤ 57 := by
    rcases h with rfl | h
    · decide
    · unfold Char.isDigit at h
      simp only [ge_iff_le, Bool.and_eq_true, decide_eq_true_eq, UInt32.le_iff_toNat_le] at h
      exact ⟨Nat.le_trans (by decide) h.1, h.2⟩
  have hne : ∀ d : Char, (d.toNat < 45 ∨ 57 < d.toNat) → c ≠ d := by
    rintro d hd rfl
    omega
  have hletter : Literal.letter? c = none := by
    unfold Literal.letter?
    split <;> first | rfl | exact absurd rfl (hne _ (by decide))
  unfold Literal.encodeChar
  rw [hletter]
  simp only
  rw [if_neg (by omega)]

theorem mem_ofInt {i : Int} {c : Char} (h : c ∈ Decimal.ofInt i) : c = '-' ∨ c.isDigit = true := by
  unfold Decimal.ofInt at h
  split at h
  · rcases List.mem_cons.mp h with rfl | h
    · exact .inl rfl
    · exact .inr (Decimal.isDigit_of_mem_ofNat h)
  · exact .inr (Decimal.isDigit_of_mem_ofNat h)

theorem encode_ofInt (i : Int) :
    Literal.encode (String.ofList (Decimal.ofInt i)) = Decimal.ofInt i := by
  unfold Literal.encode
  rw [String.toList_ofList, List.flatMap_eq_foldl]
  have hfold : ∀ (cs done : List Char), (∀ c ∈ cs, c = '-' ∨ c.isDigit = true) →
      cs.foldl (fun acc c => acc ++ Literal.encodeChar c) done = done ++ cs := by
    intro cs
    induction cs with
    | nil => simp
    | cons c cs ih =>
      intro done h
      rw [List.foldl_cons, encodeChar_of_isDigit (h c List.mem_cons_self),
        ih _ fun d hd => h d (List.mem_cons_of_mem _ hd)]
      simp
  exact hfold _ [] fun c hc => mem_ofInt hc

theorem render_ofInt (i : Int) : (Numeral.ofInt i).render = Decimal.ofInt i := by
  unfold Numeral.render Numeral.ofInt Decimal.ofInt
  by_cases hi : i < 0 <;> simp [hi]

theorem intKey?_ofInt (i : Int) :
    intKey? (Decimal.ofInt i) = if Decimal.fits i then some i else none := by
  have htake := Numeral.take?_render_ofInt i Numeral.ends_nil
  rw [List.append_nil, render_ofInt] at htake
  simp [intKey?, htake, Numeral.int?_ofInt]

end Json

open Json

/-! ## Rows -/

theorem Instant.ofJson?_toJson (t : Instant) : Instant.ofJson? t.toJson = some t := by
  simp [Instant.ofJson?, Instant.toJson, Rfc3339.readLoosely?_write]

theorem Json.optional?_text {α : Type} (read : Json → Option α) (literal : List Char) :
    Json.optional? read (.text literal) = (read (.text literal)).map some := rfl

theorem optional?_instant (t : Option Instant) :
    Json.optional? Instant.ofJson? ((t.map Instant.toJson).getD .null) = some t := by
  cases t with
  | none => rfl
  | some t =>
    have h := Instant.ofJson?_toJson t
    unfold Instant.toJson ofText at h
    rw [Option.map_some, Option.getD_some, Instant.toJson, ofText, Json.optional?_text, h]
    rfl

theorem Change.ofJson?_text (literal : List Char) :
    Change.ofJson? (.text literal) = (Literal.decode? literal).bind Change.ofName? := rfl

theorem Change.ofJson?_name (c : Change) : Change.ofJson? (ofText c.name) = some c := by
  rw [ofText, Change.ofJson?_text, Literal.decode?_encode]
  cases c <;> decide

theorem Observation.ofJson?_toJson (o : Observation) : Observation.ofJson? o.toJson = some o := by
  unfold Observation.ofJson? Observation.toJson
  rw [fields?_ofMembers]
  simp [member?, Slot.required?, Instant.ofJson?_toJson, Change.ofJson?_name]

theorem Observation.written_toJson (o : Observation) : Written o.toJson := by
  apply written_ofMembers
  intro m hm
  simp only [List.mem_cons, List.not_mem_nil, or_false] at hm
  rcases hm with rfl | rfl | rfl | rfl <;> exact .text _

theorem Summary.ofJson?_toJson (s : Summary) : Summary.ofJson? s.toJson = some s := by
  unfold Summary.ofJson? Summary.toJson
  dsimp only
  rw [fields?_ofMembers]
  simp [member?, Slot.optional?, Slot.default?, optional?_instant, list?_text, Json.bool?]

theorem written_instant (t : Option Instant) : Written ((t.map Instant.toJson).getD .null) := by
  cases t with
  | none => exact .null
  | some t => exact .text _

theorem Summary.written_toJson (s : Summary) : Written s.toJson := by
  apply written_ofMembers
  intro m hm
  simp only [List.mem_cons, List.not_mem_nil, or_false] at hm
  rcases hm with rfl | rfl | rfl | rfl | rfl
  · exact written_instant _
  · exact written_instant _
  · exact written_instant _
  · exact .bool _
  · exact written_array .text _

theorem Activity.ofJson?_toJson (a : Activity) :
    Activity.ofJson? a.toJson = if a.representable then some a else none := by
  unfold Activity.ofJson? Activity.toJson Activity.representable
  rw [fields?_ofMembers]
  cases hc : a.changedAt.all Decimal.fits <;> cases hn : a.noChangeAt.all Decimal.fits <;>
    simp [member?, Slot.default?, list?_int, hc, hn]

theorem Activity.written_toJson (a : Activity) : Written a.toJson := by
  apply written_ofMembers
  intro m hm
  simp only [List.mem_cons, List.not_mem_nil, or_false] at hm
  rcases hm with rfl | rfl <;> exact written_array .int _

namespace EventTally

theorem reasonsOfJson?_toJson (counts : ReasonCounts) :
    reasonsOfJson? (reasonsToJson counts) =
      if representableReasons counts then some counts else none := by
  have hmap := map?_entries Literal.decode? int? Literal.encode ofInt
    (fun e : String × Int => Decimal.fits e.2)
    (fun e => by
      rw [Literal.decode?_encode, int?_ofInt]
      cases Decimal.fits e.2 <;> rfl) counts
  unfold reasonsOfJson? reasonsToJson representableReasons
  rw [fields?_ofMembers]
  simp only [ofMembers, List.map_map, Function.comp_def]
  simpa [member?, Slot.default?] using hmap

theorem map?_minutes (minutes : SortedMap Int ReasonCounts) :
    map? intKey? reasonsOfJson? (minutesToJson minutes) =
      if representableMinutes minutes then some minutes else none :=
  map?_entries intKey? reasonsOfJson? Decimal.ofInt reasonsToJson
    (fun e : Int × ReasonCounts => Decimal.fits e.1 && representableReasons e.2)
    (fun e => by
      rw [intKey?_ofInt, reasonsOfJson?_toJson]
      cases Decimal.fits e.1 <;> cases representableReasons e.2 <;> rfl) minutes

theorem ofJson?_toJson (t : EventTally) :
    ofJson? t.toJson = if t.representable then some t else none := by
  obtain ⟨byMinute⟩ := t
  unfold ofJson? toJson
  rw [fields?_ofMembers]
  cases byMinute with
  | none => simp [member?, Slot.optional?, Json.optional?, representable]
  | some minutes =>
    have hread : Json.optional? (map? intKey? reasonsOfJson?) (minutesToJson minutes) =
        (map? intKey? reasonsOfJson? (minutesToJson minutes)).map some := rfl
    rw [map?_minutes] at hread
    have hrepresentable : representable ⟨some minutes⟩ = representableMinutes minutes := rfl
    rw [hrepresentable]
    by_cases hm : representableMinutes minutes = true <;>
      simp [member?, Slot.optional?, hread, hm]

theorem written_reasonsToJson (counts : ReasonCounts) : Written (reasonsToJson counts) := by
  apply written_ofMembers
  intro m hm
  rw [List.mem_singleton] at hm
  subst hm
  apply written_ofMembers
  intro m hm
  obtain ⟨e, -, rfl⟩ := List.mem_map.mp hm
  exact .int _

theorem written_toJson (t : EventTally) : Written t.toJson := by
  apply written_ofMembers
  intro m hm
  rw [List.mem_singleton] at hm
  subst hm
  obtain ⟨byMinute⟩ := t
  cases byMinute with
  | none => exact .null
  | some minutes =>
    exact written_object (fun e => ⟨_, (encode_ofInt e.1).symm⟩)
      (fun e => written_reasonsToJson e.2) minutes.entries

end EventTally

namespace Table

theorem ofJson?_toJson (t : Table) (row : t.Row) :
    t.ofJson? (t.toJson row) = if t.representable row then some row else none := by
  cases t with
  | watch => exact Observation.ofJson?_toJson row
  | summary => exact Summary.ofJson?_toJson row
  | eventCount => exact EventTally.ofJson?_toJson row
  | activity => exact Activity.ofJson?_toJson row
  | relation => exact Summary.ofJson?_toJson row

theorem written_toJson (t : Table) (row : t.Row) : Written (t.toJson row) := by
  cases t with
  | watch => exact Observation.written_toJson row
  | summary => exact Summary.written_toJson row
  | eventCount => exact EventTally.written_toJson row
  | activity => exact Activity.written_toJson row
  | relation => exact Summary.written_toJson row

/-- **The text of a row reads back as the row**, if its whole numbers fit, and else as nothing. -/
theorem read?_write (t : Table) (row : t.Row) :
    t.read? (t.write row) = if t.representable row then some row else none := by
  rw [read?, write, read?_render (written_toJson t row)]
  exact ofJson?_toJson t row

/-- No text of a row is read as another row. -/
theorem eq_of_read?_write {t : Table} {row found : t.Row} (h : t.read? (t.write row) = some found) :
    found = row := by
  rw [read?_write] at h
  split at h
  · exact (Option.some.inj h).symm
  · cases h

end Table

end WatchHistory
