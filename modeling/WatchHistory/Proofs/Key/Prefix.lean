import WatchHistory.Proofs.Key.RoundTrip
import WatchHistory.Proofs.Text.Bytes

/-!
# Stems as bytes

Keys are searched by the bytes of their texts: what a stem covers starts with its bytes and goes on
at the end of a segment (`covers_iff_bytes`).

* `covers_retarget_render_iff`: a stem that is moved to the partition of a key that is read back
  covers that key exactly if its fields agree with those of the key, and only if the key is in the
  range of the stem.
-/

set_option autoImplicit false

namespace WatchHistory.Key

open WatchHistory.Text

variable {t : Table} {k stem : Key t}

/-! ## Bytes -/

/-- Whether a text starts with a stem byte by byte, and the stem ends with a slash, or the text ends
behind it or goes on with the byte of a slash. -/
def CoversBytes (stem text : String) : Prop :=
  bytes stem <+: bytes text ∧
    (stem.toList.getLast? = some '/' ∨ (bytes text).length = (bytes stem).length ∨
      (bytes text)[(bytes stem).length]? = some 0x2f)

theorem covers_iff_bytes {stem text : String} :
    covers stem text = true ↔ CoversBytes stem text := by
  have hbehind : ∀ rest, text.toList = stem.toList ++ rest →
      ((bytes text).length = (bytes stem).length ↔ rest = []) ∧
        ((bytes text)[(bytes stem).length]? = some 0x2f ↔ rest.head? = some '/') := by
    intro rest hrest
    have hbytes : bytes text = bytes stem ++ Utf8.encode rest := by
      rw [bytes_eq, bytes_eq, hrest, Utf8.encode_append]
    have hslash : (Utf8.encode rest).head? = some 0x2f ↔ rest.head? = some '/' :=
      Utf8.head?_encode_iff (c := '/') (by decide)
    rw [hbytes, List.length_append, Nat.add_eq_left, List.length_eq_zero_iff,
      Utf8.encode_eq_nil_iff, List.getElem?_append_right (Nat.le_refl _), Nat.sub_self,
      ← List.head?_eq_getElem?, hslash]
    exact ⟨Iff.rfl, Iff.rfl⟩
  rw [covers_iff_append, CoversBytes, bytes_prefix_bytes_iff]
  refine ⟨fun h => ?_, fun h => ?_⟩
  · obtain ⟨rest, hrest, hcut⟩ := h
    obtain ⟨hend, hslash⟩ := hbehind rest hrest
    rw [hend, hslash]
    exact ⟨⟨rest, hrest.symm⟩, hcut⟩
  · obtain ⟨⟨rest, hrest⟩, hcut⟩ := h
    obtain ⟨hend, hslash⟩ := hbehind rest hrest.symm
    rw [hend, hslash] at hcut
    exact ⟨rest, hrest.symm, hcut⟩

/-! ## Keys that are read back -/

theorem spells_render (h : parse t k.render = .ok k) : Spells k.render k := by
  obtain ⟨-, hcomplete⟩ := (parse_render_iff k).mp h
  have hne : lastText t k.last ≠ [] := (readLast?_lastText_iff.mpr hcomplete).1
  exact ⟨h, by rw [toList_render, dropEmptyEnd_fields hne]⟩

/-- A stem without slashes in its texts is `Comparable` if its last segment is absent or complete,
as every uid is. -/
theorem comparable_of_texts (hslash : ∀ text ∈ stem.texts, '/' ∉ text.toList)
    (hlast : stem.last = t.noLast ∨ t.Complete stem.last) : stem.Comparable := by
  have hfield : ∀ text ∈ [stem.partition, stem.kind, stem.ns, stem.name], '/' ∉ text.toList :=
    fun text htext => hslash text (List.mem_append_left _ htext)
  refine ⟨hfield _ (by simp), hfield _ (by simp), hfield _ (by simp), ?_, ?_⟩
  · rcases hlast with hnone | hcomplete
    · simp [lastText_eq_nil_iff.mpr hnone]
    · exact (slash_notMem_lastText_iff hcomplete).mpr fun uid huid =>
        hslash uid (List.mem_append_right _ (Option.mem_toList.mpr huid))
  · cases t with
    | watch =>
      intro time htime
      rcases hlast with hnone | ⟨time', hsome, hleap, -⟩
      · cases htime.symm.trans hnone
      · obtain rfl := Option.some.inj (htime.symm.trans hsome)
        exact Nat.not_le.mp (of_decide_eq_false hleap)
    | summary | eventCount | activity | relation => trivial

/-- **Which keys a stem covers in their own partition**, of all keys that are read back: those that
have its fields up to the last one that is not empty. Each of them is in the range of bytes from the
stem to the stem with the greatest character behind it. -/
theorem covers_retarget_render_iff (hk : parse t k.render = .ok k)
    (hslash : ∀ text ∈ stem.texts, '/' ∉ text.toList)
    (hlast : stem.last = t.noLast ∨ t.Complete stem.last) :
    (covers (stem.retarget k.partition).render k.render = true ↔ stem.Agrees k) ∧
    (CoversBytes (stem.retarget k.partition).render k.render ↔ stem.Agrees k) ∧
    (covers (stem.retarget k.partition).render k.render = true →
      bytes (stem.retarget k.partition).render ≤ bytes k.render ∧
        bytes k.render < bytes (Store.stemEnd (stem.retarget k.partition).render)) := by
  have hspells := spells_render hk
  have hstem := comparable_of_texts hslash hlast
  have hcovers := covers_retarget_iff_agrees hspells hstem
  refine ⟨hcovers, covers_iff_bytes.symm.trans hcovers, fun h => ?_⟩
  have hpartition : '/' ∉ k.partition.toList :=
    hspells.slash_notMem _ (List.mem_cons_of_mem _ List.mem_cons_self)
  obtain ⟨hlower, hupper⟩ := mem_range_of_covers_retarget hstem hpartition h
  exact ⟨mt bytes_lt_bytes_iff.mp hlower, bytes_lt_bytes_iff.mpr hupper⟩

/-- The first observation of a node. -/
def nodeAtEpoch (name : String) : Key .watch := observation .hour "Node" "" name .epoch

/-- The stem of the observations of a node, whose namespace is empty. -/
def observationsOfNode (name : String) : Key .watch := comparator .watch "Node" "" name none

/-- The stem of the node `web` covers the observations of that node and not those of `web-2`. -/
theorem covers_retarget_render_nodes :
    parse .watch (nodeAtEpoch "web").render = .ok (nodeAtEpoch "web") ∧
    parse .watch (nodeAtEpoch "web-2").render = .ok (nodeAtEpoch "web-2") ∧
    (∀ text ∈ (observationsOfNode "web").texts, '/' ∉ text.toList) ∧
    (observationsOfNode "web").last = Table.noLast .watch ∧
    covers ((observationsOfNode "web").retarget (nodeAtEpoch "web").partition).render
      (nodeAtEpoch "web").render = true ∧
    bytes (nodeAtEpoch "web").render < bytes (Store.stemEnd
      ((observationsOfNode "web").retarget (nodeAtEpoch "web").partition).render) ∧
    ¬ covers ((observationsOfNode "web").retarget (nodeAtEpoch "web-2").partition).render
      (nodeAtEpoch "web-2").render = true := by
  have hweb : parse .watch (nodeAtEpoch "web").render = .ok (nodeAtEpoch "web") :=
    eq_ok_of_toOption (by decide +kernel)
  have hweb2 : parse .watch (nodeAtEpoch "web-2").render = .ok (nodeAtEpoch "web-2") :=
    eq_ok_of_toOption (by decide +kernel)
  have hslash : ∀ text ∈ (observationsOfNode "web").texts, '/' ∉ text.toList := by decide
  obtain ⟨hcovers, -, hrange⟩ := covers_retarget_render_iff hweb hslash (.inl rfl)
  obtain ⟨hcovers2, -⟩ := covers_retarget_render_iff hweb2 hslash (.inl rfl)
  have hcovered := hcovers.mpr (by decide)
  exact ⟨hweb, hweb2, hslash, rfl, hcovered, (hrange hcovered).2, mt hcovers2.mp (by decide)⟩

end WatchHistory.Key
