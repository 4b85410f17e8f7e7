import WatchHistory.Key
import WatchHistory.Proofs.Partition.Id

/-!
# Keys read back

A text is a complete key exactly if it is cut by its slashes into the empty segment, the name of the
table and five more segments (`parse_eq_ok_iff`). What is written from a key:

* `parse_render`: a key whose segments hold no slash and whose last one is not empty is read back.
* `fields_of_parse_render`: if a text is read and the last segment was not empty, no segment holds a
  slash, and the key is the one that was written.
* `partition_of_parse_render`: if a text is read at all, its partition is the one that was written.
* `exists_append_of_parse`: the text of a key continues the stem of its partition.
* `covers_iff_append`: what a stem covers is the stem and what continues it by a slash.
-/

set_option autoImplicit false

namespace WatchHistory

/-! ## Segments -/

namespace Text

theorem notMem_of_mem_split {sep : Char} {cs s : List Char} (h : s ∈ split sep cs) : sep ∉ s := by
  induction cs generalizing s with
  | nil =>
    rw [split, List.mem_singleton] at h
    simp [h]
  | cons c cs ih =>
    unfold split at h
    split at h
    · next hnil => exact absurd hnil (split_ne_nil sep cs)
    · next u us hsplit =>
      have hu : sep ∉ u := ih (hsplit ▸ List.mem_cons_self)
      have hus : ∀ v ∈ us, sep ∉ v := fun v hv => ih (hsplit ▸ List.mem_cons_of_mem _ hv)
      split at h
      · rcases List.mem_cons.mp h with rfl | h
        · simp
        · rcases List.mem_cons.mp h with rfl | h
          · exact hu
          · exact hus s h
      · next hc =>
        rcases List.mem_cons.mp h with rfl | h
        · rw [List.mem_cons, not_or]
          exact ⟨fun h => hc h.symm, hu⟩
        · exact hus s h

theorem split_append_sep (sep : Char) (cs ds : List Char) :
    split sep (cs ++ sep :: ds) = split sep cs ++ split sep ds := by
  induction cs with
  | nil => exact split_append (by simp) ds
  | cons c cs ih =>
    have hne := split_ne_nil sep cs
    obtain ⟨s, ss, hs⟩ := List.exists_cons_of_ne_nil hne
    rw [hs] at ih
    by_cases hc : c = sep <;> simp [split, ih, hs, hc]

theorem split_join_flatMap (sep : Char) {ss : List (List Char)} (hne : ss ≠ []) :
    split sep (join sep ss) = ss.flatMap (split sep) := by
  induction ss with
  | nil => exact absurd rfl hne
  | cons s ss ih =>
    cases ss with
    | nil => simp [join]
    | cons u ss =>
      rw [join, split_append_sep, ih (by simp)]
      exact List.flatMap_cons.symm

theorem notMem_of_length_split {sep : Char} {ss : List (List Char)}
    (h : (ss.flatMap (split sep)).length = ss.length) : ∀ s ∈ ss, sep ∉ s := by
  have hle : ∀ us : List (List Char), us.length ≤ (us.flatMap (split sep)).length := by
    intro us
    induction us with
    | nil => simp
    | cons u us ih =>
      have := List.length_pos_iff.mpr (split_ne_nil sep u)
      rw [List.flatMap_cons, List.length_append, List.length_cons]
      omega
  induction ss with
  | nil => simp
  | cons u us ih =>
    have hu := List.length_pos_iff.mpr (split_ne_nil sep u)
    have hus := hle us
    rw [List.flatMap_cons, List.length_append, List.length_cons] at h
    intro s hs
    rcases List.mem_cons.mp hs with rfl | hs
    · obtain ⟨v, hv⟩ := List.length_eq_one_iff.mp (show (split sep s).length = 1 by omega)
      have hjoin := join_split sep s
      rw [hv] at hjoin
      have hsv : v = s := hjoin
      have hmem : s ∈ split sep s := by rw [hv, hsv]; exact List.mem_singleton_self s
      exact notMem_of_mem_split hmem
    · exact ih (by omega) s hs

end Text

namespace Key

variable {t : Table}

/-- The text of the segments, each after a slash. -/
def slashed (segments : List (List Char)) : List Char := segments.flatMap fun s => '/' :: s

theorem cons_join {ss : List (List Char)} (h : ss ≠ []) : '/' :: Text.join '/' ss = slashed ss := by
  induction ss with
  | nil => exact absurd rfl h
  | cons s ss ih =>
    cases ss with
    | nil => simp [Text.join, slashed]
    | cons u ss =>
      have hrest := ih (by simp)
      rw [Text.join, hrest]
      rfl

theorem split_slashed {ss : List (List Char)} (h : ∀ s ∈ ss, '/' ∉ s) :
    Text.split '/' (slashed ss) = [] :: ss := by
  by_cases hne : ss = []
  · subst hne
    rfl
  · rw [← cons_join hne, ← List.nil_append ('/' :: _), Text.split_append (by simp),
      Text.split_join hne h]

theorem dropEmptyEnd_cons {s : List Char} (hs : s ≠ []) (ss : List (List Char)) :
    dropEmptyEnd (s :: ss) = s :: dropEmptyEnd ss := by
  unfold dropEmptyEnd
  rw [List.reverse_cons, List.dropWhile_append]
  have hempty : s.isEmpty = false := by simpa using hs
  split
  · next h =>
    rw [List.isEmpty_iff] at h
    simp [hempty, h]
  · simp

theorem dropEmptyEnd_concat {s : List Char} (hs : s ≠ []) (ss : List (List Char)) :
    dropEmptyEnd (ss ++ [s]) = ss ++ [s] := by
  have hempty : s.isEmpty = false := by simpa using hs
  simp [dropEmptyEnd, hempty]

theorem dropEmptyEnd_sublist (ss : List (List Char)) : (dropEmptyEnd ss).Sublist ss := by
  have h := (List.dropWhile_sublist (l := ss.reverse) List.isEmpty).reverse
  rwa [List.reverse_reverse] at h

theorem mem_of_mem_dropEmptyEnd {s : List Char} {ss : List (List Char)}
    (h : s ∈ dropEmptyEnd ss) : s ∈ ss :=
  (dropEmptyEnd_sublist ss).subset h

theorem name_ne_nil (t : Table) : t.name.toList ≠ [] := by cases t <;> decide

theorem slash_notMem_name (t : Table) : '/' ∉ t.name.toList := by cases t <;> decide

theorem toList_render (k : Key t) :
    k.render.toList = slashed (t.name.toList :: dropEmptyEnd k.fields) := by
  rw [render, String.toList_ofList, dropEmptyEnd_cons (name_ne_nil t), cons_join (by simp)]

/-! ## Reading -/

/-- Complete keys are texts of seven segments, of which the first is empty, the second names the
table and the last one can be read. -/
theorem parse_eq_ok_iff {text : String} {k : Key t} :
    parse t text = .ok k ↔ ∃ last,
      Text.split '/' text.toList = [[], t.name.toList, k.partition.toList, k.kind.toList,
        k.ns.toList, k.name.toList, last] ∧ readLast? t last = some k.last := by
  constructor
  · intro h
    unfold parse at h
    split at h
    · next root table partition kind ns name last hsplit =>
      split at h
      · cases h
      · next hroot =>
        split at h
        · cases h
        · next htable =>
          split at h
          · cases h
          · next last' hlast =>
            cases h
            refine ⟨last, ?_, hlast⟩
            rw [hsplit, Decidable.not_not.mp hroot, Decidable.not_not.mp htable]
            simp
    · cases h
  · rintro ⟨last, hsplit, hlast⟩
    unfold parse
    rw [hsplit]
    simp [hlast]

theorem exists_slashed_of_parse {text : String} {k : Key t} (h : parse t text = .ok k) :
    ∃ last, text.toList = slashed [t.name.toList, k.partition.toList, k.kind.toList, k.ns.toList,
      k.name.toList, last] ∧ readLast? t last = some k.last ∧ '/' ∉ k.partition.toList ∧
      '/' ∉ k.kind.toList ∧ '/' ∉ k.ns.toList ∧ '/' ∉ k.name.toList ∧ '/' ∉ last := by
  obtain ⟨last, hsplit, hlast⟩ := parse_eq_ok_iff.mp h
  have hmem : ∀ s ∈ Text.split '/' text.toList, '/' ∉ s := fun s hs => Text.notMem_of_mem_split hs
  have hjoin := Text.join_split '/' text.toList
  rw [hsplit] at hmem hjoin
  refine ⟨last, ?_, hlast, hmem _ (by simp), hmem _ (by simp), hmem _ (by simp), hmem _ (by simp),
    hmem _ (by simp)⟩
  rw [← hjoin, ← cons_join (by simp)]
  rfl

theorem toList_partitionStem (t : Table) (p : String) :
    (t.partitionStem p).toList = slashed [t.name.toList, p.toList] ++ ['/'] := by
  simp [Table.partitionStem, slashed]

theorem split_stem_append (t : Table) (cs : List Char) :
    Text.split '/' (t.stem.toList ++ cs) = [] :: t.name.toList :: Text.split '/' cs := by
  have hstem : t.stem.toList ++ cs = [] ++ '/' :: (t.name.toList ++ '/' :: cs) := by
    simp [Table.stem]
  rw [hstem, Text.split_append (by simp), Text.split_append (slash_notMem_name t)]

theorem table_eq_of_stem_append {t u : Table} {cs ds : List Char}
    (h : t.stem.toList ++ cs = u.stem.toList ++ ds) : t = u := by
  have hsplit := congrArg (Text.split '/') h
  rw [split_stem_append, split_stem_append] at hsplit
  simp only [List.cons.injEq, true_and] at hsplit
  exact Table.name_injective (String.toList_injective hsplit.1)

theorem exists_append_of_parse {text : String} {k : Key t} (h : parse t text = .ok k) :
    ∃ rest, text.toList =
      (t.partitionStem k.partition).toList ++ (k.kind.toList ++ '/' :: rest) := by
  obtain ⟨last, htext, -⟩ := exists_slashed_of_parse h
  refine ⟨k.ns.toList ++ slashed [k.name.toList, last], ?_⟩
  rw [htext, toList_partitionStem]
  simp [slashed]

theorem table_eq_of_parse {t u : Table} {text : String} {k : Key t} {k' : Key u}
    (h : parse t text = .ok k) (h' : parse u text = .ok k') : t = u := by
  obtain ⟨last, hsplit, -⟩ := parse_eq_ok_iff.mp h
  obtain ⟨last', hsplit', -⟩ := parse_eq_ok_iff.mp h'
  rw [hsplit] at hsplit'
  simp only [List.cons.injEq] at hsplit'
  exact Table.name_injective (String.toList_injective hsplit'.2.1)

/-! ## Reading what is written -/

theorem split_render (k : Key t) :
    Text.split '/' k.render.toList =
      [] :: t.name.toList :: (dropEmptyEnd k.fields).flatMap (Text.split '/') := by
  rw [render, String.toList_ofList, dropEmptyEnd_cons (name_ne_nil t)]
  rw [← List.nil_append ('/' :: _), Text.split_append (by simp),
    Text.split_join_flatMap _ (by simp), List.flatMap_cons,
    Text.split_of_not_mem (slash_notMem_name t)]
  rfl

theorem not_stem_isPrefix_render {u : Table} (h : u ≠ t) (k : Key t) :
    ¬ u.stem.toList <+: k.render.toList := by
  intro hprefix
  obtain ⟨rest, hrest⟩ := hprefix
  have hsplit := split_stem_append u rest
  rw [hrest, split_render] at hsplit
  simp only [List.cons.injEq, true_and] at hsplit
  exact h (Table.name_injective (String.toList_injective hsplit.1.symm))

theorem dropEmptyEnd_fields {k : Key t} (h : lastText t k.last ≠ []) :
    dropEmptyEnd k.fields = k.fields :=
  dropEmptyEnd_concat h [k.partition.toList, k.kind.toList, k.ns.toList, k.name.toList]

/-- `parse` reads the text of a key as one with the same names, if its segments hold no slash, and
the last one is not empty and can be read. -/
theorem parse_render_of_readLast? {k : Key t} {last : t.Last} (h : ∀ s ∈ k.fields, '/' ∉ s)
    (hne : lastText t k.last ≠ []) (hread : readLast? t (lastText t k.last) = some last) :
    parse t k.render = .ok { k with last } := by
  refine parse_eq_ok_iff.mpr ⟨lastText t k.last, ?_, hread⟩
  rw [split_render, dropEmptyEnd_fields hne]
  simp only [fields, List.mem_cons, List.not_mem_nil, or_false, forall_eq_or_imp, forall_eq] at h
  obtain ⟨hp, hk, hns, hn, hl⟩ := h
  simp [fields, Text.split_of_not_mem, hp, hk, hns, hn, hl]

/-- **A key is read back** if its segments hold no slash, and the last one is not empty. -/
theorem parse_render {k : Key t} (h : ∀ s ∈ k.fields, '/' ∉ s) (hne : lastText t k.last ≠ [])
    (hread : readLast? t (lastText t k.last) = some k.last) : parse t k.render = .ok k :=
  parse_render_of_readLast? h hne hread

/-- What is read of the text of a key whose last segment is not empty has the fields of the key. -/
theorem fields_of_parse_render {k k' : Key t} (hne : lastText t k.last ≠ [])
    (h : parse t k.render = .ok k') :
    (∀ s ∈ k.fields, '/' ∉ s) ∧ k'.partition = k.partition ∧ k'.kind = k.kind ∧ k'.ns = k.ns ∧
      k'.name = k.name ∧ readLast? t (lastText t k.last) = some k'.last := by
  obtain ⟨last, hsplit, hlast⟩ := parse_eq_ok_iff.mp h
  rw [split_render, dropEmptyEnd_fields hne] at hsplit
  simp only [List.cons.injEq, true_and] at hsplit
  have hslash : ∀ s ∈ k.fields, '/' ∉ s :=
    Text.notMem_of_length_split (by rw [hsplit]; rfl)
  refine ⟨hslash, ?_⟩
  simp only [fields, List.mem_cons, List.not_mem_nil, or_false, forall_eq_or_imp,
    forall_eq] at hslash
  obtain ⟨hp, hk, hns, hn, hl⟩ := hslash
  simp only [fields, List.flatMap_cons, List.flatMap_nil, Text.split_of_not_mem hp,
    Text.split_of_not_mem hk, Text.split_of_not_mem hns, Text.split_of_not_mem hn,
    Text.split_of_not_mem hl, List.cons_append, List.nil_append, List.cons.injEq, and_true,
    String.toList_inj] at hsplit
  obtain ⟨hp', hk', hns', hn', rfl⟩ := hsplit
  exact ⟨hp'.symm, hk'.symm, hns'.symm, hn'.symm, hlast⟩

theorem dropEmptyEnd_fields_of_parse_render {k k' : Key t} (hslash : ∀ s ∈ k.fields, '/' ∉ s)
    (h : parse t k.render = .ok k') : dropEmptyEnd k.fields = k.fields := by
  have hmem : ∀ s ∈ t.name.toList :: dropEmptyEnd k.fields, '/' ∉ s :=
    List.forall_mem_cons.mpr
      ⟨slash_notMem_name t, fun s hs => hslash s (mem_of_mem_dropEmptyEnd hs)⟩
  obtain ⟨last, hsplit, -⟩ := parse_eq_ok_iff.mp h
  rw [toList_render, split_slashed hmem] at hsplit
  have hlength := congrArg List.length hsplit
  exact (dropEmptyEnd_sublist k.fields).eq_of_length (by simpa [fields] using hlength)

theorem lastText_ne_nil_of_parse_render {k k' : Key t} (hslash : ∀ s ∈ k.fields, '/' ∉ s)
    (h : parse t k.render = .ok k') : lastText t k.last ≠ [] := by
  intro hlast
  have hdrop : dropEmptyEnd k.fields = dropEmptyEnd k.fields.dropLast := by
    simp [fields, hlast, dropEmptyEnd]
  have hlength := (dropEmptyEnd_sublist k.fields.dropLast).length_le
  rw [← hdrop, dropEmptyEnd_fields_of_parse_render hslash h] at hlength
  simp [fields] at hlength

theorem partition_of_parse_render {k k' : Key t} (hslash : '/' ∉ k.partition.toList)
    (hne : k.partition.toList ≠ []) (h : parse t k.render = .ok k') :
    k'.partition = k.partition := by
  obtain ⟨last, hsplit, -⟩ := parse_eq_ok_iff.mp h
  rw [split_render, fields, dropEmptyEnd_cons hne, List.flatMap_cons,
    Text.split_of_not_mem hslash] at hsplit
  simp only [List.cons_append, List.nil_append, List.cons.injEq, true_and, String.toList_inj]
    at hsplit
  exact hsplit.1.symm

theorem dropEmptyEnd_cons_cases (s : List Char) (ss : List (List Char)) :
    dropEmptyEnd (s :: ss) = [] ∨ dropEmptyEnd (s :: ss) = s :: dropEmptyEnd ss := by
  by_cases hs : s = []
  · unfold dropEmptyEnd
    rw [List.reverse_cons, List.dropWhile_append]
    split
    · exact .inl (by simp [hs])
    · exact .inr (by simp)
  · exact .inr (dropEmptyEnd_cons hs ss)

theorem plain_slashed (ss : List (List Char)) : Text.Plain (slashed ss) := by
  cases ss with
  | nil => exact fun c hc => by simp [slashed] at hc
  | cons s ss => exact Text.plain_slash _

theorem plain_kind_of_parse_render {k k' : Key t} (hslash : '/' ∉ k.partition.toList)
    (hne : k.partition.toList ≠ []) (hkind : Text.Plain k.kind.toList)
    (h : parse t k.render = .ok k') : Text.Plain k'.kind.toList := by
  obtain ⟨rest, hrest⟩ := exists_append_of_parse h
  rw [toList_render, fields, dropEmptyEnd_cons hne, partition_of_parse_render hslash hne h,
    toList_partitionStem] at hrest
  rcases dropEmptyEnd_cons_cases k.kind.toList
    [k.ns.toList, k.name.toList, lastText t k.last] with hnil | hcons
  · rw [hnil] at hrest
    simp [slashed] at hrest
  · rw [hcons] at hrest
    simp only [slashed, List.flatMap_cons, List.flatMap_nil, List.append_nil, List.cons_append,
      List.append_assoc, List.nil_append, List.cons.injEq, List.append_cancel_left_eq,
      true_and] at hrest
    have hplain := Text.plain_append hkind
      (plain_slashed (dropEmptyEnd [k.ns.toList, k.name.toList, lastText t k.last]))
    rw [slashed, hrest] at hplain
    exact Text.plain_of_plain_append hplain

/-! ## Stems -/

/-- A stem covers itself and what continues it by a slash; one that ends with a slash may be
continued by anything. -/
theorem covers_iff_append {stem text : String} :
    covers stem text = true ↔ ∃ rest, text.toList = stem.toList ++ rest ∧
      (stem.toList.getLast? = some '/' ∨ rest = [] ∨ rest.head? = some '/') := by
  unfold covers
  rw [Bool.and_eq_true, Bool.or_eq_true, decide_eq_true_eq, List.isPrefixOf_iff_prefix]
  refine ⟨fun h => ?_, fun h => ?_⟩
  · obtain ⟨⟨rest, hrest⟩, h⟩ := h
    rw [← hrest, List.drop_left] at h
    refine ⟨rest, hrest.symm, h.imp_right fun hcut => ?_⟩
    cases rest with
    | nil => exact .inl rfl
    | cons c rest => exact .inr (by simpa using hcut)
  · obtain ⟨rest, hrest, h⟩ := h
    rw [hrest, List.drop_left]
    refine ⟨List.prefix_append _ _, h.imp_right fun hcut => ?_⟩
    cases rest with
    | nil => rfl
    | cons c rest => simpa using hcut

/-! ## Keys of objects -/

section

variable {g : Granularity} {time : Instant} {kind ns name : String} {last : t.Last} {k : Key t}

theorem partition_of_parse_within (h : parse t (within g t time kind ns name last).render = .ok k) :
    k.partition = Partition.idAt (g.floor time.seconds) :=
  partition_of_parse_render (k := within g t time kind ns name last)
    (Partition.slash_notMem_idAt (g.floor time.seconds))
    (Partition.ranked_idAt (g.floor time.seconds)).1 h

theorem plain_kind_of_parse_within (hkind : Text.Plain kind.toList)
    (h : parse t (within g t time kind ns name last).render = .ok k) : Text.Plain k.kind.toList :=
  plain_kind_of_parse_render (k := within g t time kind ns name last)
    (Partition.slash_notMem_idAt (g.floor time.seconds))
    (Partition.ranked_idAt (g.floor time.seconds)).1 hkind h

end

end Key

end WatchHistory
