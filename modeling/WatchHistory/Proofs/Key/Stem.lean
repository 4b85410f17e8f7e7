import Mathlib.Data.List.TakeWhile
import WatchHistory.Proofs.Key.Observation

/-!
# What a stem covers

A text that spells a key (`Key.Spells`) is made of the fields of that key. A stem of a partition
covers such a text exactly if the key lies in the partition and has the fields of the stem up to the
last one that is not empty (`Key.Agrees`, `covers_retarget_iff`), because texts made of segments
continue each other exactly if their segments do (`covers_iff_segments`). In its own partition it is
covered even if that has an empty id (`covers_retarget_iff_agrees`).

* `Spells.of_uid`, `spells_observation`: whenever the text of the key of an object or of an
  observation is read, it spells the key that is read.
-/

set_option autoImplicit false

namespace WatchHistory

/-- What stands for no last segment. -/
def Table.noLast : (t : Table) → t.Last
  | .watch => none
  | .summary | .eventCount | .activity | .relation => ""

/-- Whether the last segment of a key tells no leap second; uids tell none. -/
def Table.Regular : (t : Table) → t.Last → Prop
  | .watch, last => ∀ time, last = some time → time.nanos < billion
  | .summary, _ | .eventCount, _ | .activity, _ | .relation, _ => True

namespace Key

variable {t u : Table}

/-! ## Texts made of segments -/

theorem slashed_append (as bs : List (List Char)) : slashed (as ++ bs) = slashed as ++ slashed bs :=
  List.flatMap_append

theorem getLast?_slashed_concat {s : List Char} (hs : s ≠ []) (hslash : '/' ∉ s)
    (ss : List (List Char)) : (slashed (ss ++ [s])).getLast? ≠ some '/' := by
  obtain ⟨cs, c, rfl⟩ := (List.eq_nil_or_concat s).resolve_left hs
  have hend : slashed (ss ++ [cs ++ [c]]) = (slashed ss ++ '/' :: cs) ++ [c] := by
    simp [slashed]
  rw [List.concat_eq_append, hend, List.getLast?_concat]
  intro h
  obtain rfl := Option.some.inj h
  exact hslash (by simp)

/-- A stem made of segments covers a text exactly if the segments of the text continue its own,
unless the stem ends with a slash. -/
theorem covers_iff_segments {stem text : String} {ss cs : List (List Char)} {s : List Char}
    (hstem : stem.toList = slashed (ss ++ [s])) (htext : text.toList = slashed cs)
    (hss : ∀ x ∈ ss ++ [s], '/' ∉ x) (hs : s ≠ []) (hcs : ∀ x ∈ cs, '/' ∉ x) :
    covers stem text = true ↔ ss ++ [s] <+: cs := by
  have hend : stem.toList.getLast? ≠ some '/' := by
    rw [hstem]
    exact getLast?_slashed_concat hs (hss s (by simp)) ss
  rw [covers_iff_append]
  simp only [hend, false_or]
  refine ⟨fun h => ?_, fun h => ?_⟩
  · obtain ⟨rest, hrest, hcut⟩ := h
    rw [hstem, htext] at hrest
    have hsplit := congrArg (Text.split '/') hrest
    rw [split_slashed hcs] at hsplit
    rcases hcut with rfl | hcut
    · rw [List.append_nil, split_slashed hss] at hsplit
      exact ⟨[], by rw [List.append_nil]; exact (List.cons.inj hsplit).2.symm⟩
    · obtain ⟨rest, rfl⟩ := List.head?_eq_some_iff.mp hcut
      rw [Text.split_append_sep, split_slashed hss, List.cons_append] at hsplit
      exact ⟨Text.split '/' rest, (List.cons.inj hsplit).2.symm⟩
  · obtain ⟨ds, rfl⟩ := h
    rw [slashed_append, ← hstem] at htext
    refine ⟨slashed ds, htext, ?_⟩
    cases ds with
    | nil => exact .inl rfl
    | cons d ds => exact .inr rfl

/-! ## Texts that spell their keys -/

/-- Whether a text is that of a complete key and is made of the fields of that key. -/
structure Spells (text : String) (k : Key t) : Prop where
  parse : Key.parse t text = .ok k
  toList_eq : text.toList = slashed (t.name.toList :: k.fields)

namespace Spells

variable {text text' : String} {k : Key t}

theorem slash_notMem (h : Spells text k) : ∀ s ∈ t.name.toList :: k.fields, '/' ∉ s := by
  obtain ⟨last, htext, -, hp, hk, hns, hn, hl⟩ := exists_slashed_of_parse h.parse
  have hsame : lastText t k.last = last := by
    have hboth := h.toList_eq.symm.trans htext
    simpa [slashed, fields] using hboth
  have hname := slash_notMem_name t
  rw [← hsame] at hl
  simp only [fields, List.mem_cons, List.not_mem_nil, or_false, forall_eq_or_imp, forall_eq]
  exact ⟨hname, hp, hk, hns, hn, hl⟩

theorem injective (h : Spells text k) (h' : Spells text' k) : text = text' :=
  String.toList_injective (h.toList_eq.trans h'.toList_eq.symm)

theorem of_uid (ht : t ≠ .watch) (h : Key.parse t text = .ok k) : Spells text k := by
  obtain ⟨last, htext, hlast, -⟩ := exists_slashed_of_parse h
  refine ⟨h, ?_⟩
  have hsame : last = lastText t k.last := by
    cases t with
    | watch => exact absurd rfl ht
    | summary | eventCount | activity | relation =>
      have huid : String.ofList last = k.last := Option.some.inj hlast
      show last = k.last.toList
      rw [← huid, String.toList_ofList]
  rw [htext, hsame]
  rfl

theorem readLast? (h : Spells text k) : Key.readLast? t (lastText t k.last) = some k.last := by
  obtain ⟨last, htext, hlast, -⟩ := exists_slashed_of_parse h.parse
  have hsame : lastText t k.last = last := by
    have hboth := h.toList_eq.symm.trans htext
    simpa [slashed, fields] using hboth
  rw [hsame, hlast]

end Spells

/-! ## Times in keys -/

theorem totalNanos_of_ofNanos? {n : Int} {time : Instant} (h : Instant.ofNanos? n = some time) :
    time.totalNanos = n ∧ time.nanos < billion := by
  obtain ⟨hseconds, hnanos⟩ := Instant.of?_eq_some_iff.mp h
  unfold Instant.totalNanos billion
  rw [hseconds, hnanos]
  omega

theorem lastText_eq_nil_iff {last : t.Last} : lastText t last = [] ↔ last = t.noLast := by
  cases t with
  | watch =>
    cases last with
    | none => simp [lastText, Table.noLast]
    | some time => simp [lastText, Table.noLast, instantText_ne_nil]
  | summary | eventCount | activity | relation => simp [lastText, Table.noLast]

theorem eq_of_readLast?_lastText {last found : t.Last} (hregular : t.Regular last)
    (hread : readLast? t (lastText t last) = some found) : found = last := by
  cases t with
  | watch =>
    cases last with
    | none => cases hread
    | some time =>
      have hfits := fits_of_readLast? hread
      have hread' := readLast?_instantText hfits (hregular time rfl)
      exact Option.some.inj (hread.symm.trans hread')
  | summary | eventCount | activity | relation =>
    have huid : String.ofList last.toList = found := Option.some.inj hread
    rw [← huid, String.ofList_toList]

theorem lastText_inj {a b : t.Last} (ha : readLast? t (lastText t a) = some a)
    (hb : t.Regular b) : lastText t a = lastText t b ↔ a = b :=
  ⟨fun hsame => eq_of_readLast?_lastText hb (hsame ▸ ha), fun h => h ▸ rfl⟩

theorem spells_observation {g : Granularity} {kind ns name : String} {time : Instant}
    {k : Key .watch} (h : parse .watch (observation g kind ns name time).render = .ok k) :
    Spells (observation g kind ns name time).render k := by
  have hne : lastText .watch (some time) ≠ [] := instantText_ne_nil time
  obtain ⟨-, hpartition, hkind, hns, hname, hlast⟩ :=
    fields_of_parse_render (k := observation g kind ns name time) hne h
  have hfits := fits_of_readLast? hlast
  refine ⟨h, ?_⟩
  have hsame : lastText .watch k.last = instantText time := by
    have hread : readLast? .watch (instantText time) = some k.last := hlast
    rw [instantText, if_pos hfits] at hread
    obtain ⟨u, hu, hk⟩ := Option.map_eq_some_iff.mp hread
    rw [Decimal.int?_ofInt hfits, Option.bind_some] at hu
    obtain ⟨htotal, -⟩ := totalNanos_of_ofNanos? hu
    rw [← hk]
    show instantText u = instantText time
    rw [instantText, instantText, htotal]
    simp [hfits]
  rw [toList_render, dropEmptyEnd_fields (k := observation g kind ns name time) hne, fields, fields,
    hpartition, hkind, hns, hname, hsame]
  rfl

/-! ## Stems -/

/-- Whether a key has the fields of a stem, apart from the partition, up to the last one of them
that is not empty. -/
def Agrees (stem k : Key t) : Prop :=
  ((stem.kind ≠ "" ∨ stem.ns ≠ "" ∨ stem.name ≠ "" ∨ stem.last ≠ t.noLast) → k.kind = stem.kind) ∧
  ((stem.ns ≠ "" ∨ stem.name ≠ "" ∨ stem.last ≠ t.noLast) → k.ns = stem.ns) ∧
  ((stem.name ≠ "" ∨ stem.last ≠ t.noLast) → k.name = stem.name) ∧
  (stem.last ≠ t.noLast → k.last = stem.last)

instance (stem k : Key t) : Decidable (stem.Agrees k) :=
  inferInstanceAs (Decidable ((_ → _) ∧ (_ → _) ∧ (_ → _) ∧ (_ → _)))

/-- Whether no field of a stem holds a slash, apart from the partition, and no leap second is
told. -/
structure Comparable (stem : Key t) : Prop where
  slash_kind : '/' ∉ stem.kind.toList
  slash_ns : '/' ∉ stem.ns.toList
  slash_name : '/' ∉ stem.name.toList
  slash_last : '/' ∉ lastText t stem.last
  regular : t.Regular stem.last

theorem dropEmptyEnd_eq_nil_iff {ss : List (List Char)} :
    dropEmptyEnd ss = [] ↔ ∀ s ∈ ss, s = [] := by
  simp [dropEmptyEnd, List.dropWhile_eq_nil_iff]

theorem exists_concat_dropEmptyEnd {ss : List (List Char)} (h : dropEmptyEnd ss ≠ []) :
    ∃ front s, dropEmptyEnd ss = front ++ [s] ∧ s ≠ [] := by
  unfold dropEmptyEnd at h ⊢
  cases hdrop : ss.reverse.dropWhile List.isEmpty with
  | nil => simp [hdrop] at h
  | cons s front =>
    refine ⟨front.reverse, s, by simp, fun hs => ?_⟩
    have hhead := List.head?_dropWhile_not List.isEmpty ss.reverse
    rw [hdrop, hs] at hhead
    simp at hhead

theorem dropEmptyEnd_prefix_cons {b c : List Char} {bs cs : List (List Char)} :
    dropEmptyEnd (b :: bs) <+: c :: cs ↔
      ((∃ s ∈ b :: bs, s ≠ []) → c = b) ∧ dropEmptyEnd bs <+: cs := by
  rcases dropEmptyEnd_cons_cases b bs with hnil | hcons
  · have hall := dropEmptyEnd_eq_nil_iff.mp hnil
    have hrest : dropEmptyEnd bs = [] :=
      dropEmptyEnd_eq_nil_iff.mpr fun s hs => hall s (List.mem_cons_of_mem _ hs)
    rw [hnil, hrest]
    simp only [List.nil_prefix, and_true, true_iff]
    rintro ⟨s, hs, hne⟩
    exact absurd (hall s hs) hne
  · have hsome : ∃ s ∈ b :: bs, s ≠ [] := by
      apply Classical.byContradiction
      intro hnone
      have hnil : dropEmptyEnd (b :: bs) = [] := dropEmptyEnd_eq_nil_iff.mpr fun s hs =>
        Decidable.byContradiction fun hne => hnone ⟨s, hs, hne⟩
      rw [hcons] at hnil
      cases hnil
    rw [hcons, List.cons_prefix_cons]
    constructor
    · rintro ⟨rfl, hrest⟩
      exact ⟨fun _ => rfl, hrest⟩
    · rintro ⟨hsame, hrest⟩
      exact ⟨(hsame hsome).symm, hrest⟩

/-- A key agrees with a stem exactly if its segments continue those of the stem up to the last one
that is not empty. -/
theorem agrees_iff_segments {text : String} {stem k : Key t} (hk : Spells text k)
    (hstem : stem.Comparable) :
    stem.Agrees k ↔
      dropEmptyEnd [stem.kind.toList, stem.ns.toList, stem.name.toList, lastText t stem.last] <+:
        [k.kind.toList, k.ns.toList, k.name.toList, lastText t k.last] := by
  have hlast := lastText_inj hk.readLast? hstem.regular
  have hempty : ∀ s : String, s.toList ≠ [] ↔ s ≠ "" := by simp
  have hnoLast : lastText t stem.last ≠ [] ↔ stem.last ≠ t.noLast := not_congr lastText_eq_nil_iff
  simp only [dropEmptyEnd_prefix_cons, List.mem_cons, List.not_mem_nil, or_false,
    exists_eq_or_imp, exists_eq_left, hempty, hnoLast, hlast, String.toList_inj]
  unfold Agrees
  simp [dropEmptyEnd]

theorem exists_segments_render {stem : Key t} (hslash : ∀ s ∈ stem.fields, '/' ∉ s) :
    ∃ front s, t.name.toList :: dropEmptyEnd stem.fields = front ++ [s] ∧
      stem.render.toList = slashed (front ++ [s]) ∧ (∀ x ∈ front ++ [s], '/' ∉ x) ∧ s ≠ [] := by
  have hcons := dropEmptyEnd_cons (name_ne_nil t) stem.fields
  obtain ⟨front, s, hfront, hs⟩ := exists_concat_dropEmptyEnd (hcons ▸ List.cons_ne_nil _ _)
  rw [hcons] at hfront
  refine ⟨front, s, hfront, ?_, ?_, hs⟩
  · rw [← hfront, toList_render]
  · rw [← hfront]
    exact List.forall_mem_cons.mpr
      ⟨slash_notMem_name t, fun x hx => hslash x (mem_of_mem_dropEmptyEnd hx)⟩

theorem Comparable.slash_notMem {stem : Key t} (h : stem.Comparable) {p : String}
    (hslash : '/' ∉ p.toList) : ∀ s ∈ (stem.retarget p).fields, '/' ∉ s := by
  simp only [fields, retarget, List.mem_cons, List.not_mem_nil, or_false, forall_eq_or_imp,
    forall_eq]
  exact ⟨hslash, h.slash_kind, h.slash_ns, h.slash_name, h.slash_last⟩

theorem mem_range_of_covers {stem text : String} (hend : stem.toList.getLast? ≠ some '/')
    (h : covers stem text = true) : ¬ text < stem ∧ text < Store.stemEnd stem := by
  obtain ⟨rest, hrest, hcut⟩ := covers_iff_append.mp h
  refine Text.mem_range_iff.mpr ⟨rest, hrest, ?_⟩
  rcases hcut.resolve_left hend with rfl | hcut
  · exact fun c hc => by simp at hc
  · obtain ⟨rest, rfl⟩ := List.head?_eq_some_iff.mp hcut
    exact Text.plain_slash rest

section

variable {text p : String} {stem : Key t}

theorem covers_render_iff_segments {k : Key u} (hk : Spells text k)
    (hslash : ∀ s ∈ stem.fields, '/' ∉ s) :
    covers stem.render text = true ↔
      t.name.toList :: dropEmptyEnd stem.fields <+: u.name.toList :: k.fields := by
  obtain ⟨front, s, hfront, hrender, hslashes, hs⟩ := exists_segments_render hslash
  rw [hfront]
  exact covers_iff_segments hrender hk.toList_eq hslashes hs hk.slash_notMem

/-- A stem that is moved to the partition of a key covers it exactly if their fields agree. -/
theorem covers_retarget_iff_agrees {k : Key t} (hk : Spells text k) (hstem : stem.Comparable) :
    covers (stem.retarget k.partition).render text = true ↔ stem.Agrees k := by
  have hslash : '/' ∉ k.partition.toList :=
    hk.slash_notMem _ (List.mem_cons_of_mem _ List.mem_cons_self)
  rw [covers_render_iff_segments hk (hstem.slash_notMem hslash), List.cons_prefix_cons,
    fields, fields, dropEmptyEnd_prefix_cons, agrees_iff_segments hk hstem]
  exact ⟨fun h => h.2.2, fun h => ⟨rfl, fun _ => rfl, h⟩⟩

/-- **What a stem covers**: the texts of the keys in its partition that have its fields. -/
theorem covers_retarget_iff (htext : ∃ (u : Table) (k : Key u), Spells text k)
    (hstem : stem.Comparable) (hp : p.toList ≠ []) (hslash : '/' ∉ p.toList) :
    covers (stem.retarget p).render text = true ↔
      ∃ k : Key t, Spells text k ∧ k.partition = p ∧ stem.Agrees k := by
  refine ⟨fun hcovers => ?_, fun h => ?_⟩
  · obtain ⟨u, k, hk⟩ := htext
    obtain ⟨hname, hrest⟩ := List.cons_prefix_cons.mp
      ((covers_render_iff_segments hk (hstem.slash_notMem hslash)).mp hcovers)
    obtain rfl := Table.name_injective (String.toList_injective hname)
    rw [fields, fields, dropEmptyEnd_prefix_cons] at hrest
    obtain ⟨hpartition, hrest⟩ := hrest
    have hsame : k.partition = p :=
      String.toList_injective (hpartition ⟨p.toList, List.mem_cons_self, hp⟩)
    exact ⟨k, hk, hsame, (agrees_iff_segments hk hstem).mpr hrest⟩
  · obtain ⟨k, hk, rfl, hagrees⟩ := h
    exact (covers_retarget_iff_agrees hk hstem).mpr hagrees

theorem mem_range_of_covers_retarget (hstem : stem.Comparable) (hslash : '/' ∉ p.toList)
    (hcovers : covers (stem.retarget p).render text = true) :
    ¬ text < (stem.retarget p).render ∧ text < Store.stemEnd (stem.retarget p).render := by
  obtain ⟨front, s, -, hrender, hslashes, hs⟩ := exists_segments_render (hstem.slash_notMem hslash)
  refine mem_range_of_covers ?_ hcovers
  rw [hrender]
  exact getLast?_slashed_concat hs (hslashes s (by simp)) front

end

end Key

end WatchHistory
