import WatchHistory.Proofs.Text.Order

/-!
# Texts as bytes

A store keeps texts as the bytes of their UTF-8 form, and compares them byte by byte. That is the
same as comparing characters.

* `bytes_lt_bytes_iff`: the order of texts is the order of their bytes. The first byte of a
  character tells how many follow, the more the greater it is (`Utf8.lead_lt_lead`), and equally
  many bytes are ordered as the numbers that they spell (`Utf8.sextets_lt_sextets`).
* `bytes_prefix_bytes_iff`: a text starts with another one exactly if its bytes do.
* `Utf8.head?_encode_iff`: a character of one byte, such as a slash, is found where its byte is.
-/

set_option autoImplicit false

namespace WatchHistory.Text

/-! ## The bytes of a character -/

namespace Utf8

/-- How many bytes follow the first one of the character with the number `n`. -/
def followers (n : Nat) : Nat :=
  if n ≤ 127 then 0 else if n ≤ 2047 then 1 else if n ≤ 65535 then 2 else 3

/-- The least first byte of a character with the given number of bytes behind it. -/
def mark : Nat → Nat
  | 0 => 0
  | 1 => 192
  | 2 => 224
  | 3 => 240
  | _ => 248

/-- A number without the bits that the given number of bytes hold. -/
def high : Nat → Nat → Nat
  | 0, n => n
  | k + 1, n => high k (n / 64)

/-- The first byte of the character with the number `n`. -/
def lead (n : Nat) : Nat := high (followers n) n + mark (followers n)

/-- The lowest bits of a number in the given number of bytes, six bits each. -/
def sextets : Nat → Nat → List UInt8
  | 0, _ => []
  | k + 1, n => sextets k (n / 64) ++ [UInt8.ofNat (n % 64 + 128)]

theorem followers_cases (n : Nat) :
    (n ≤ 127 ∧ followers n = 0) ∨ (127 < n ∧ n ≤ 2047 ∧ followers n = 1) ∨
      (2047 < n ∧ n ≤ 65535 ∧ followers n = 2) ∨ (65535 < n ∧ followers n = 3) := by
  unfold followers
  grind

theorem encodeChar_eq (c : Char) :
    String.utf8EncodeChar c =
      UInt8.ofNat (lead c.toNat) :: sextets (followers c.toNat) c.toNat := by
  have hc : c.val.toNat ≤ 1114111 := toNat_le_sentinel c
  rw [show c.toNat = c.val.toNat from rfl]
  simp only [String.utf8EncodeChar, lead]
  generalize c.val.toNat = n at *
  have h12 : n / 64 / 64 = n / 4096 := by omega
  have h18 : n / 4096 / 64 = n / 262144 := by omega
  rcases followers_cases n with ⟨hn, hk⟩ | ⟨hn, hn', hk⟩ | ⟨hn, hn', hk⟩ | ⟨hn, hk⟩
  · simp [hk, hn, high, mark, sextets]
  · have hhigh : n / 64 % 32 = n / 64 := by omega
    simp [hk, Nat.not_le.mpr hn, hn', high, mark, sextets, hhigh]
  · have hhigh : n / 4096 % 16 = n / 4096 := by omega
    have hn'' : ¬ n ≤ 127 := by omega
    simp [hk, hn'', Nat.not_le.mpr hn, hn', high, mark, sextets, h12, hhigh]
  · have hhigh : n / 262144 % 8 = n / 262144 := by omega
    have hn' : ¬ n ≤ 127 ∧ ¬ n ≤ 2047 := by omega
    simp [hk, hn', Nat.not_le.mpr hn, high, mark, sextets, h12, h18, hhigh]

theorem followers_mono {m n : Nat} (h : m ≤ n) : followers m ≤ followers n := by
  have hm := followers_cases m
  have hn := followers_cases n
  omega

theorem followers_le (n : Nat) : followers n ≤ 3 := by
  have hn := followers_cases n
  omega

theorem mark_mono {i j : Nat} (h : i ≤ j) (hj : j ≤ 4) : mark i ≤ mark j := by
  have hall : ∀ j < 5, ∀ i ≤ j, mark i ≤ mark j := by decide
  exact hall j (Nat.lt_succ_of_le hj) i h

theorem lead_lt_mark {n : Nat} (h : n ≤ 1114111) : lead n < mark (followers n + 1) := by
  unfold lead
  rcases followers_cases n with ⟨hn, hk⟩ | ⟨hn, hn', hk⟩ | ⟨hn, hn', hk⟩ | ⟨hn, hk⟩
  all_goals
    rw [hk]
    simp only [high, mark]
    omega

theorem lead_lt_byte {n : Nat} (h : n ≤ 1114111) : lead n < 256 :=
  calc lead n < mark (followers n + 1) := lead_lt_mark h
    _ ≤ mark 4 := mark_mono (Nat.succ_le_succ (followers_le n)) (Nat.le_refl 4)
    _ ≤ 256 := by decide

theorem lead_lt_lead {m n : Nat} (hm : m ≤ 1114111) (h : followers m < followers n) :
    lead m < lead n :=
  calc lead m < mark (followers m + 1) := lead_lt_mark hm
    _ ≤ mark (followers n) := mark_mono h (Nat.le_succ_of_le (followers_le n))
    _ ≤ lead n := Nat.le_add_left ..

theorem ofNat_cons_lt {a b : Nat} (hb : b < 256) (h : a < b) (xs ys : List UInt8) :
    UInt8.ofNat a :: xs < UInt8.ofNat b :: ys := by
  rw [List.cons_lt_cons_iff]
  refine .inl (UInt8.lt_iff_toNat_lt.mpr ?_)
  rw [UInt8.toNat_ofNat', UInt8.toNat_ofNat']
  omega

/-- Numbers are ordered as the bytes that spell them, if there are equally many. -/
theorem sextets_lt_sextets {k m n a : Nat} (hbound : high k n + a < 256) (h : m < n)
    (xs ys : List UInt8) :
    UInt8.ofNat (high k m + a) :: (sextets k m ++ xs) <
      UInt8.ofNat (high k n + a) :: (sextets k n ++ ys) := by
  induction k generalizing m n xs ys with
  | zero => exact ofNat_cons_lt hbound (Nat.add_lt_add_right h a) _ _
  | succ k ih =>
    rw [sextets, sextets, List.append_assoc, List.append_assoc]
    by_cases hlt : m / 64 < n / 64
    · exact ih hbound hlt _ _
    · -- All but the last six bits are the same.
      have hsame : m / 64 = n / 64 := by omega
      rw [high, high, hsame, List.cons_lt_cons_self]
      exact List.append_left_lt (ofNat_cons_lt (by omega) (by omega) _ _)

/-- The bytes of a greater character are greater, whatever comes behind them. -/
theorem encodeChar_lt {c d : Char} (h : c < d) (xs ys : List UInt8) :
    String.utf8EncodeChar c ++ xs < String.utf8EncodeChar d ++ ys := by
  have hlt : c.toNat < d.toNat := h
  have hbyte := lead_lt_byte (toNat_le_sentinel d)
  rw [encodeChar_eq, encodeChar_eq, List.cons_append, List.cons_append]
  rcases Nat.lt_or_eq_of_le (followers_mono (Nat.le_of_lt hlt)) with hfew | hsame
  · exact ofNat_cons_lt hbyte (lead_lt_lead (toNat_le_sentinel c) hfew) _ _
  · unfold lead at hbyte ⊢
    rw [hsame]
    exact sextets_lt_sextets hbyte hlt xs ys

theorem lead_eq_iff {m n : Nat} (hm : m ≤ 127) : lead n = m ↔ n = m := by
  by_cases hk : followers n = 0
  · simp [lead, hk, high, mark]
  · have hcases := followers_cases n
    have hmark : mark 1 ≤ mark (followers n) :=
      mark_mono (Nat.pos_of_ne_zero hk) (Nat.le_succ_of_le (followers_le n))
    have hone : mark 1 = 192 := rfl
    unfold lead
    omega

/-! ## The bytes of several characters -/

def encode (cs : List Char) : List UInt8 := cs.flatMap String.utf8EncodeChar

theorem encode_append (cs ds : List Char) : encode (cs ++ ds) = encode cs ++ encode ds :=
  List.flatMap_append

theorem encode_eq_nil_iff {cs : List Char} : encode cs = [] ↔ cs = [] := by
  cases cs with
  | nil => simp [encode]
  | cons c cs => simp [encode, encodeChar_eq]

theorem encode_lt_encode {cs ds : List Char} (h : cs < ds) : encode cs < encode ds := by
  induction cs generalizing ds with
  | nil =>
    cases ds with
    | nil => simp at h
    | cons d ds => simp [encode, encodeChar_eq]
  | cons c cs ih =>
    cases ds with
    | nil => simp at h
    | cons d ds =>
      rcases List.cons_lt_cons_iff.mp h with hlt | ⟨rfl, hlt⟩
      · exact encodeChar_lt hlt (encode cs) (encode ds)
      · exact List.append_left_lt (ih hlt)

theorem head?_encode_iff {cs : List Char} {c : Char} (hc : c.toNat ≤ 127) :
    (encode cs).head? = some (UInt8.ofNat c.toNat) ↔ cs.head? = some c := by
  cases cs with
  | nil => simp [encode]
  | cons d ds =>
    have hbyte := lead_lt_byte (toNat_le_sentinel d)
    have hsame : UInt8.ofNat (lead d.toNat) = UInt8.ofNat c.toNat ↔ lead d.toNat = c.toNat := by
      rw [← UInt8.toNat_inj, UInt8.toNat_ofNat', UInt8.toNat_ofNat']
      omega
    simp [encode, encodeChar_eq, hsame, lead_eq_iff hc, Char.toNat_inj]

end Utf8

/-! ## The bytes of a text -/

/-- The UTF-8 form of a text. -/
def bytes (text : String) : List UInt8 := text.toByteArray.data.toList

theorem bytes_eq (text : String) : bytes text = Utf8.encode text.toList := by
  rw [bytes, ← String.utf8Encode_toList, List.utf8Encode, List.data_toByteArray]
  rfl

/-- **The order of texts is the order of their bytes.** -/
theorem bytes_lt_bytes_iff {a b : String} : bytes a < bytes b ↔ a < b := by
  have hmono : ∀ {x y : String}, x < y → bytes x < bytes y := fun h => by
    rw [bytes_eq, bytes_eq]
    exact Utf8.encode_lt_encode (String.lt_iff.mp h)
  refine ⟨fun h => Decidable.byContradiction fun hnot => ?_, hmono⟩
  by_cases hba : b < a
  · exact List.lt_asymm h (hmono hba)
  · rw [StrictOrder.connex hnot hba] at h
    exact List.lt_irrefl _ h

/-- A text starts with another one exactly if its bytes do. -/
theorem bytes_prefix_bytes_iff {a b : String} : bytes a <+: bytes b ↔ a.toList <+: b.toList := by
  rw [bytes_eq, bytes_eq]
  refine ⟨fun h => ?_, fun h => ?_⟩
  · obtain ⟨rest, hrest⟩ := h
    refine List.isPrefix_of_utf8Encode_append_eq_utf8Encode rest.toByteArray ?_
    rw [List.utf8Encode, List.utf8Encode, ← List.toByteArray_append]
    exact congrArg List.toByteArray hrest
  · obtain ⟨rest, hrest⟩ := h
    exact ⟨Utf8.encode rest, by rw [← Utf8.encode_append, hrest]⟩

end WatchHistory.Text
