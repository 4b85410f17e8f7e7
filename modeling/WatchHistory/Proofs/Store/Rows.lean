import WatchHistory.Proofs.Fallible
import WatchHistory.Proofs.Row.RoundTrip
import WatchHistory.Proofs.Store.Partitions
import WatchHistory.Store.Rows

/-!
# Single rows

What writing and looking up a row under a complete key comes to: `set_eq_ok`, `find?_eq_ok` and
`getOrInitial_eq_ok` for success, and `set_eq_error`, `get_eq_error` and `find?_eq_error` for
failure. What is looked up depends on the text under the key only (`getOrInitial_congr`), and a row
that is written is in the partition of its key (`holdsAny_of_set`). A row that is written is found
again and keeps its text (`get_set`). `FiledIn` says of a store which partitions its rows lie in.
-/

set_option autoImplicit false

namespace WatchHistory

open WatchHistory.Partition

namespace Store

variable {s s' : Store} {t : Table}

theorem parseKey_eq_ok {text : String} {k : Key t} :
    parseKey t text = .ok k ↔ Key.parse t text = .ok k := mapError_eq_ok

theorem set_eq_ok {k : Key t} {row : t.Row} : s.set k row = .ok s' ↔
    (∃ k', Key.parse t k.render = .ok k') ∧ s.insert k.render (t.write row) = s' := by
  unfold set
  rw [bind_eq_ok]
  simp only [parseKey_eq_ok, pure, Except.pure, Except.ok.injEq, exists_and_right]

theorem set_of_parse {k k' : Key t} (h : Key.parse t k.render = .ok k') (s : Store) (row : t.Row) :
    s.set k row = .ok (s.insert k.render (t.write row)) := set_eq_ok.mpr ⟨⟨k', h⟩, rfl⟩

theorem get?_set {k : Key t} {row : t.Row} (h : s.set k row = .ok s') (x : String) :
    s'.get? x = if x = k.render then some (t.write row) else s.get? x := by
  obtain ⟨-, rfl⟩ := set_eq_ok.mp h
  exact get?_insert s _ _ x

theorem filed_of_set {k : Key t} {row : t.Row} {second : Int} (hp : k.partition = idAt second)
    (h : s.set k row = .ok s') : Filed t (idAt second) k.render := by
  obtain ⟨⟨k', hk'⟩, -⟩ := set_eq_ok.mp h
  refine ⟨k', hk', ?_⟩
  rw [← hp]
  exact Key.partition_of_parse_render (hp ▸ slash_notMem_idAt second) (hp ▸ (ranked_idAt second).1)
    hk'

theorem HoldsAny.set {k : Key t} {row : t.Row} {p : String} (hp : s.HoldsAny p)
    (h : s.set k row = .ok s') : s'.HoldsAny p := by
  obtain ⟨u, key, text, htext, hfiled⟩ := hp
  by_cases hkey : key = k.render
  · exact ⟨u, key, _, by rw [get?_set h, if_pos hkey], hfiled⟩
  · exact ⟨u, key, text, by rw [get?_set h, if_neg hkey, htext], hfiled⟩

theorem holdsAny_of_set {k : Key t} {row : t.Row} {second : Int} (hp : k.partition = idAt second)
    (h : s.set k row = .ok s') : s'.HoldsAny (idAt second) :=
  ⟨t, k.render, _, by rw [get?_set h, if_pos rfl], filed_of_set hp h⟩

theorem get_eq_ok {k : Key t} {row : t.Row} : s.get k = .ok row ↔
    (∃ k', Key.parse t k.render = .ok k') ∧
      ∃ text, s.get? k.render = some text ∧ t.read? text = some row := by
  unfold get
  rw [bind_eq_ok]
  simp only [parseKey_eq_ok, exists_and_right]
  apply and_congr_right
  intro _
  cases htext : s.get? k.render with
  | none => simp [throw, throwThe, MonadExceptOf.throw]
  | some text =>
    cases hread : t.read? text with
    | none => simp [hread, throw, throwThe, MonadExceptOf.throw]
    | some found => simp [hread, pure, Except.pure]

/-- `find?` finds the row that the text under a readable key stands for, or none if there is no
text. -/
theorem find?_eq_ok {k : Key t} {found : Option t.Row} : s.find? k = .ok found ↔
    (∃ k', Key.parse t k.render = .ok k') ∧
      ((s.get? k.render = none ∧ found = none) ∨
        ∃ text row, s.get? k.render = some text ∧ t.read? text = some row ∧ found = some row) := by
  unfold find? get parseKey
  cases hparse : Key.parse t k.render with
  | error e => simp [bind, Except.bind, StoreError.isNotFound]
  | ok k' =>
    cases htext : s.get? k.render with
    | none =>
      simp [bind, Except.bind, throw, throwThe, MonadExceptOf.throw,
        StoreError.isNotFound, eq_comm]
    | some text =>
      cases hread : t.read? text with
      | none =>
        simp [bind, Except.bind, throw, throwThe, MonadExceptOf.throw,
          StoreError.isNotFound, hread]
      | some row =>
        simp [bind, Except.bind, pure, Except.pure, hread, eq_comm]

theorem getOrInitial_eq_ok {k : Key t} {row : t.Row} : s.getOrInitial k = .ok row ↔
    ∃ found, s.find? k = .ok found ∧ found.getD t.initial = row := by
  unfold getOrInitial
  rw [bind_eq_ok]
  simp only [pure, Except.pure, Except.ok.injEq]

/-- A row that is written is found again, if its whole numbers fit. -/
theorem get_of_set {k : Key t} {row : t.Row} (h : s.set k row = .ok s')
    (hrow : t.representable row = true) : s'.get k = .ok row := by
  refine get_eq_ok.mpr ⟨(set_eq_ok.mp h).1, t.write row, ?_, ?_⟩
  · rw [get?_set h, if_pos rfl]
  · rw [Table.read?_write, if_pos hrow]

theorem find?_of_get {k : Key t} {row : t.Row} (h : s.get k = .ok row) :
    s.find? k = .ok (some row) := by
  unfold find?
  rw [h]

/-- **Stored rows survive the round trip.** Where a row is written, in whatever store, the same row
is found, if its whole numbers fit into their 64-bit fields; else none is. What is found has the
text that is stored. -/
theorem get_set {s s' : Store} {t : Table} {k : Key t} {row : t.Row} (h : s.set k row = .ok s') :
    s'.get k = (if t.representable row then .ok row else .error (.undecodable t k.render)) ∧
      ∀ found, s'.get k = .ok found → s'.get? k.render = some (t.write found) := by
  have htext : s'.get? k.render = some (t.write row) := by rw [get?_set h, if_pos rfl]
  constructor
  · cases hrow : t.representable row with
    | true => exact get_of_set h hrow
    | false =>
      obtain ⟨⟨k', hk⟩, -⟩ := set_eq_ok.mp h
      have hread : t.read? (t.write row) = none := by rw [Table.read?_write, hrow]; rfl
      simp [get, parseKey, hk, htext, hread, bind, Except.bind, throw, throwThe,
        MonadExceptOf.throw]
  · intro found hfound
    obtain ⟨-, text, htext', hread⟩ := get_eq_ok.mp hfound
    obtain rfl : t.write row = text := Option.some.inj (htext.symm.trans htext')
    rw [Table.eq_of_read?_write hread, htext]

/-- The key of the events about a pod in the first partition. -/
def talliedWeb : Key .eventCount := ⟨idAt 0, "Pod", "ns", "web", "u"⟩

/-- A tally with the greatest count, in a minute before the epoch, under a reason that has to be
escaped. -/
def greatestTally : EventTally :=
  ⟨some (EventTally.addTo .empty (-60) "Größe \"x\"\n" 9223372036854775807)⟩

theorem get_set_greatestTally :
    ∃ s, empty.set talliedWeb greatestTally = .ok s ∧ s.get talliedWeb = .ok greatestTally ∧
      s.get? "/eventcount/000000000000/Pod/ns/web/u" =
        some ("\x7b\"by_minute\":\x7b\"-60\":\x7b\"by_reason\":" ++
          "\x7b\"Größe \\\"x\\\"\\n\":9223372036854775807\x7d\x7d\x7d\x7d") := by
  have hparse : Key.parse .eventCount talliedWeb.render = .ok talliedWeb :=
    eq_ok_of_toOption (by decide +kernel)
  have hset := set_of_parse hparse empty greatestTally
  obtain ⟨hget, htext⟩ := get_set hset
  rw [if_pos (by decide +kernel)] at hget
  refine ⟨_, hset, hget, ?_⟩
  have hrender : talliedWeb.render = "/eventcount/000000000000/Pod/ns/web/u" := by decide +kernel
  rw [← hrender, htext _ hget]
  decide +kernel

theorem get?_ne_write {k : Key t} {row row' : t.Row} (h : s.getOrInitial k = .ok row)
    (hne : row' ≠ row) : s.get? k.render ≠ some (t.write row') := by
  intro hsame
  obtain ⟨found, hfound, rfl⟩ := getOrInitial_eq_ok.mp h
  rcases (find?_eq_ok.mp hfound).2 with ⟨hnone, -⟩ | ⟨text, row, htext, hread, rfl⟩
  · rw [hnone] at hsame
    cases hsame
  · rw [htext] at hsame
    cases hsame
    exact hne (Table.eq_of_read?_write hread).symm

theorem eq_of_set {k : Key t} {row : t.Row} (h : s.set k row = .ok s')
    (hsame : s.get? k.render = some (t.write row)) : s' = s := by
  refine ext_get? fun key => ?_
  rw [get?_set h]
  split
  · next hkey => rw [hkey, hsame]
  · rfl

theorem get_congr {k : Key t} (h : s.get? k.render = s'.get? k.render) : s.get k = s'.get k := by
  unfold get
  rw [h]

theorem find?_congr {k : Key t} (h : s.get? k.render = s'.get? k.render) :
    s.find? k = s'.find? k := by
  unfold find?
  rw [get_congr h]

theorem getOrInitial_congr {k : Key t} (h : s.get? k.render = s'.get? k.render) :
    s.getOrInitial k = s'.getOrInitial k := by
  unfold getOrInitial
  rw [find?_congr h]

/-- `get` fails because there is no such row, or its key or its text cannot be read. -/
theorem get_eq_error {k : Key t} {e : StoreError} (h : s.get k = .error e) :
    e = .missing k.render ∨ (∃ fault, e = .badKey fault) ∨ e = .undecodable t k.render := by
  unfold get at h
  rcases bind_eq_error.mp h with h | ⟨_, -, h⟩
  · obtain ⟨fault, -, rfl⟩ := mapError_eq_error.mp h
    exact .inr (.inl ⟨fault, rfl⟩)
  · split at h
    · cases h
      exact .inl rfl
    · split at h
      · cases h
        exact .inr (.inr rfl)
      · cases h

theorem find?_eq_error {k : Key t} {e : StoreError} (h : s.find? k = .error e) :
    (∃ fault, e = .badKey fault) ∨ e = .undecodable t k.render := by
  unfold find? at h
  split at h
  · cases h
  · next e' he' =>
    split at h
    · cases h
    · next hfound =>
      cases h
      rcases get_eq_error he' with rfl | h
      · exact absurd rfl hfound
      · exact h

theorem set_eq_error {k : Key t} {row : t.Row} {e : StoreError} (h : s.set k row = .error e) :
    ∃ fault, e = .badKey fault := by
  rcases bind_eq_error.mp h with h | ⟨_, -, h⟩
  · obtain ⟨fault, -, rfl⟩ := mapError_eq_error.mp h
    exact ⟨fault, rfl⟩
  · cases h

/-! ## The partitions of all rows -/

/-- Whether every key is complete and lies in a partition of which the second has a property. -/
def FiledIn (P : Int → Prop) (s : Store) : Prop :=
  ∀ key row, s.get? key = some row → ∃ t second, Filed t (idAt second) key ∧ P second

namespace FiledIn

variable {P : Int → Prop}

theorem empty (P : Int → Prop) : Store.empty.FiledIn P := nofun

theorem keyed (h : s.FiledIn P) : s.Keyed := by
  intro key row hrow
  obtain ⟨t, second, hfiled, -⟩ := h key row hrow
  exact ⟨t, second, hfiled⟩

theorem of_holdsAny (h : s.FiledIn P) {p : String} (hp : s.HoldsAny p) :
    ∃ second, p = idAt second ∧ P second := by
  obtain ⟨t, key, row, hrow, hfiled⟩ := hp
  obtain ⟨u, second, hid, hsecond⟩ := h key row hrow
  exact ⟨second, (hfiled.unique hid).2, hsecond⟩

theorem mono (h : s.FiledIn P)
    (hless : ∀ key row, s'.get? key = some row → s.get? key = some row) : s'.FiledIn P :=
  fun key row hrow => h key row (hless key row hrow)

theorem set (h : s.FiledIn P) {k : Key t} {row : t.Row} {second : Int}
    (hp : k.partition = idAt second) (hsecond : P second) (hset : s.set k row = .ok s') :
    s'.FiledIn P := by
  intro key text htext
  rw [get?_set hset] at htext
  split at htext
  · next hkey => exact ⟨t, second, hkey ▸ filed_of_set hp hset, hsecond⟩
  · exact h key text htext

end FiledIn

end Store

end WatchHistory
