import WatchHistory.Proofs.Key.Stem
import WatchHistory.Proofs.Store.Rows

/-!
# Which keys share a row

A write under one key changes what is found under another one exactly if both are written as the
same text. Slashes in the fields and empty segments at the end are the reason why different keys can
be: the key whose name is `web/u` and which has no uid is written as the key of `web` with the uid
`u` is. Two keys that both have a last segment, without a leap second in it, never are.

* `Key.eq_of_parse_render`: what is read of such a key is the key.
* `Key.eq_of_render_eq`: such keys that are accepted are equal if their texts are.
* `Key.render_intoName`: every key with a last segment is written as one without.
* `Key.spares_iff`: which writes leave which look-ups as they are.
-/

set_option autoImplicit false

namespace WatchHistory

theorem Table.read?_write_initial (t : Table) : t.read? (t.write t.initial) = some t.initial := by
  rw [read?_write, if_pos (by cases t <;> rfl)]

namespace Key

variable {t : Table} {a b k : Key t}

/-- Whether a key has a last segment, without a leap second in it. -/
structure Whole (k : Key t) : Prop where
  last : k.last ≠ t.noLast
  regular : t.Regular k.last

/-! ## Keys of one text -/

theorem eq_of_parse_render (ha : a.Whole) (h : parse t a.render = .ok k) : k = a := by
  have hne : lastText t a.last ≠ [] := mt lastText_eq_nil_iff.mp ha.last
  obtain ⟨-, hpartition, hkind, hns, hname, hlast⟩ := fields_of_parse_render hne h
  cases a
  cases k
  simp only [Key.mk.injEq]
  exact ⟨hpartition, hkind, hns, hname, eq_of_readLast?_lastText ha.regular hlast⟩

theorem eq_of_render_eq (ha : a.Whole) (hb : b.Whole) (haccepted : ∃ k, parse t b.render = .ok k)
    (h : a.render = b.render) : a = b := by
  obtain ⟨k, hk⟩ := haccepted
  rw [← eq_of_parse_render ha (h ▸ hk), eq_of_parse_render hb hk]

/-- The key whose name ends with the last segment of a key, behind a slash. -/
def intoName (k : Key t) : Key t :=
  { k with name := String.ofList (k.name.toList ++ '/' :: lastText t k.last), last := t.noLast }

theorem intoName_ne (h : k.last ≠ t.noLast) : k.intoName ≠ k :=
  fun hsame => h (congrArg Key.last hsame).symm

/-- A key with a last segment is written as one without, which has that segment in its name. -/
theorem render_intoName (h : k.last ≠ t.noLast) : k.intoName.render = k.render := by
  have hne : lastText t k.last ≠ [] := mt lastText_eq_nil_iff.mp h
  have hempty : lastText t t.noLast = [] := lastText_eq_nil_iff.mpr rfl
  have hfields : dropEmptyEnd k.intoName.fields = [k.partition.toList, k.kind.toList, k.ns.toList,
      k.name.toList ++ '/' :: lastText t k.last] := by
    simp [fields, intoName, hempty, dropEmptyEnd]
  apply String.toList_injective
  rw [toList_render, toList_render, dropEmptyEnd_fields hne, hfields]
  simp [slashed, fields]

/-! ## Writing under one key, looking up another -/

/-- Whether no write under the key `b` changes what is found under the key `a`. -/
def Spares (b a : Key t) : Prop :=
  ∀ (s s' : Store) (row : t.Row), s.set b row = .ok s' → s'.get a = s.get a

theorem spares_of_render_ne (h : a.render ≠ b.render) : b.Spares a := by
  intro s s' row hset
  apply Store.get_congr
  rw [Store.get?_set hset, if_neg h]

theorem get_of_render_eq (h : a.render = b.render) (haccepted : ∃ k, parse t b.render = .ok k) :
    ∃ s', Store.empty.set b t.initial = .ok s' ∧ s'.get a = .ok t.initial ∧
      Store.empty.get a = .error (.missing b.render) := by
  obtain ⟨k, hk⟩ := haccepted
  have hset := Store.set_of_parse hk .empty t.initial
  refine ⟨_, hset, Store.get_eq_ok.mpr ⟨⟨k, h ▸ hk⟩, _, ?_, Table.read?_write_initial t⟩, ?_⟩
  · rw [Store.get?_set hset, if_pos h]
  · simp only [Store.get, Store.parseKey, h, hk]
    rfl

/-- **Which keys share a row.** Where a key is accepted, its writes leave what is found under
another one as it is, in every store, exactly if the two are written as different texts. Different
whole keys are; but every key with a last segment is written as one without. -/
theorem spares_iff (haccepted : ∃ k, parse t b.render = .ok k) :
    (∀ a, b.Spares a ↔ a.render ≠ b.render) ∧
    (∀ a, a ≠ b → a.Whole → b.Whole → b.Spares a) ∧
    (b.last ≠ t.noLast → ∃ a, a ≠ b ∧ ¬ b.Spares a) := by
  have hiff : ∀ a, b.Spares a ↔ a.render ≠ b.render := by
    refine fun a => ⟨fun hspares hsame => ?_, spares_of_render_ne⟩
    obtain ⟨s', hset, hafter, hbefore⟩ := get_of_render_eq hsame haccepted
    have hboth := hspares _ _ _ hset
    rw [hafter, hbefore] at hboth
    cases hboth
  refine ⟨hiff, fun a hne ha hb => ?_, fun hlast => ?_⟩
  · exact (hiff a).mpr fun hsame => hne (eq_of_render_eq ha hb haccepted hsame)
  · exact ⟨b.intoName, intoName_ne hlast,
      fun hspares => (hiff _).mp hspares (render_intoName hlast)⟩

/-- The key of a pod with a uid. -/
def webWithUid (uid : String) : Key .summary := ⟨Partition.idAt 0, "Pod", "ns", "web", uid⟩

/-- Two pods of one name have rows of their own. -/
theorem spares_otherUid :
    (∃ k, parse .summary (webWithUid "u").render = .ok k) ∧
      (webWithUid "u").Spares (webWithUid "v") := by
  have hwhole : ∀ uid, uid ≠ "" → (webWithUid uid).Whole := fun uid huid => ⟨huid, trivial⟩
  have haccepted : ∃ k, parse .summary (webWithUid "u").render = .ok k :=
    ⟨webWithUid "u", eq_ok_of_toOption (by decide +kernel)⟩
  exact ⟨haccepted, (spares_iff haccepted).2.1 (webWithUid "v") (by decide +kernel)
    (hwhole "v" (by decide)) (hwhole "u" (by decide))⟩

/-- The key of a pod without a uid, whose name has a slash in it. -/
def slashedWeb : Key .summary := ⟨Partition.idAt 0, "Pod", "ns", "web/u", ""⟩

/-- The row of one pod is found under the key of another one, the name of which holds a slash. -/
theorem not_spares_slashedWeb :
    slashedWeb ≠ webWithUid "u" ∧
    ∃ s, Store.empty.set (webWithUid "u") Summary.initial = .ok s ∧
      Store.empty.get slashedWeb = .error (.missing "/ressum/000000000000/Pod/ns/web/u") ∧
      s.get slashedWeb = .ok Summary.initial ∧ ¬ (webWithUid "u").Spares slashedWeb := by
  have hrender : slashedWeb.render = (webWithUid "u").render := by decide +kernel
  have haccepted : ∃ k, parse .summary (webWithUid "u").render = .ok k :=
    ⟨webWithUid "u", eq_ok_of_toOption (by decide +kernel)⟩
  obtain ⟨s, hset, hafter, hbefore⟩ := get_of_render_eq hrender haccepted
  have htext : (webWithUid "u").render = "/ressum/000000000000/Pod/ns/web/u" := by decide +kernel
  refine ⟨by decide +kernel, s, hset, htext ▸ hbefore, hafter, fun hspares => ?_⟩
  have hboth := hspares _ _ _ hset
  rw [hafter, hbefore] at hboth
  cases hboth

end Key

end WatchHistory
