import Checkup.Proofs.Tree.Writing
import Mathlib.Data.List.Basic

/-!
# Line ends in the bytes of a text

Reading a text turns each of its line ends into one line feed. In UTF-8 the two characters of line
ends are bytes of their own, and no other character has these bytes, so what is written from the text
that was read is the bytes of the file with the line ends among them turned into line feeds.

* `feeds_utf8`: turning line ends of a text into line feeds, and of its bytes.
* `toUTF8_of_decodeText`: the bytes of the text that is read from some bytes.
* `feeds_eq_self_iff`: bytes that stay as they are.
-/

namespace Checkup.Text

/-- The bytes with a line feed for every carriage return that a line feed follows, and for every one
that stands alone. -/
def feeds : List UInt8 → List UInt8
  | [] => []
  | 13 :: 10 :: rest => 10 :: feeds rest
  | b :: rest => (if b = 13 then 10 else b) :: feeds rest

theorem not_mem_feeds (bytes : List UInt8) : 13 ∉ feeds bytes := by
  fun_induction feeds bytes with
  | case1 => exact List.not_mem_nil
  | case2 rest ih =>
    rw [List.mem_cons, not_or]
    exact ⟨by decide, ih⟩
  | case3 b rest hb ih =>
    rw [List.mem_cons, not_or]
    refine ⟨?_, ih⟩
    split
    · decide
    · rename_i hne
      exact Ne.symm hne

theorem feeds_append_of_not_mem {first : List UInt8} (h : 13 ∉ first) (second : List UInt8) :
    feeds (first ++ second) = first ++ feeds second := by
  induction first with
  | nil => rfl
  | cons b rest ih =>
    rw [List.mem_cons, not_or] at h
    have hb : b ≠ 13 := Ne.symm h.1
    rw [List.cons_append, feeds.eq_3 b (rest ++ second) fun _ heq => absurd heq hb, if_neg hb,
      ih h.2, List.cons_append]

/-- Bytes stay as they are if no carriage return is among them. -/
theorem feeds_eq_self_iff {bytes : List UInt8} : feeds bytes = bytes ↔ 13 ∉ bytes := by
  constructor
  · intro h
    rw [← h]
    exact not_mem_feeds bytes
  · intro h
    have happend := feeds_append_of_not_mem h []
    rwa [List.append_nil, feeds, List.append_nil] at happend

/-! ## Bytes of characters -/

/-- The UTF-8 bytes of some characters. -/
def utf8 (chars : List Char) : List UInt8 := chars.flatMap String.utf8EncodeChar

theorem utf8_cons (c : Char) (rest : List Char) : utf8 (c :: rest) = String.utf8EncodeChar c ++ utf8 rest :=
  List.flatMap_cons

theorem utf8_toList (text : String) : text.toUTF8.data.toList = utf8 text.toList := by
  have hbytes : text.toUTF8 = text.toList.utf8Encode := by
    rw [String.toUTF8_eq_toByteArray, ← String.toByteArray_ofList, String.ofList_toList]
  rw [hbytes]
  exact List.toList_data_toByteArray

/-- A byte below 128 is the character with its number. -/
theorem toNat_eq_of_mem {c : Char} {b : UInt8} (hb : b ∈ String.utf8EncodeChar c)
    (hlow : b.toNat < 128) : c.toNat = b.toNat := by
  unfold String.utf8EncodeChar at hb
  dsimp only at hb
  have hc : c.toNat = c.val.toNat := rfl
  split at hb
  · rw [List.mem_singleton] at hb
    rw [hb, UInt8.toNat_ofNat']
    omega
  · -- the bytes of all other characters are 128 or more
    exfalso
    split at hb
    · simp only [List.mem_cons, List.not_mem_nil, or_false] at hb
      rcases hb with rfl | rfl <;> simp only [UInt8.toNat_ofNat'] at hlow <;> omega
    · split at hb
      · simp only [List.mem_cons, List.not_mem_nil, or_false] at hb
        rcases hb with rfl | rfl | rfl <;> simp only [UInt8.toNat_ofNat'] at hlow <;> omega
      · simp only [List.mem_cons, List.not_mem_nil, or_false] at hb
        rcases hb with rfl | rfl | rfl | rfl <;> simp only [UInt8.toNat_ofNat'] at hlow <;> omega

theorem eq_return_of_mem {c : Char} (h : 13 ∈ String.utf8EncodeChar c) : c = '\r' :=
  Char.toNat_inj.mp (toNat_eq_of_mem h (by decide))

theorem eq_feed_of_mem {c : Char} (h : 10 ∈ String.utf8EncodeChar c) : c = '\n' :=
  Char.toNat_inj.mp (toNat_eq_of_mem h (by decide))

/-- A text whose first byte is a line feed begins with the character. -/
theorem eq_feed_of_utf8 {chars : List Char} {more : List UInt8} (h : utf8 chars = 10 :: more) :
    ∃ rest, chars = '\n' :: rest := by
  cases chars with
  | nil => cases h
  | cons c rest =>
    rw [utf8_cons] at h
    obtain ⟨b, bytes, hbytes⟩ := List.exists_cons_of_ne_nil (String.utf8EncodeChar_ne_nil (c := c))
    rw [hbytes, List.cons_append] at h
    obtain ⟨rfl, -⟩ := List.cons.inj h
    rw [eq_feed_of_mem (c := c) (hbytes ▸ List.mem_cons_self ..)]
    exact ⟨rest, rfl⟩

theorem feeds_utf8 (chars : List Char) : utf8 (normalizeNewlines chars) = feeds (utf8 chars) := by
  fun_induction normalizeNewlines chars with
  | case1 => rfl
  | case2 rest ih =>
    have hbytes : utf8 ('\r' :: '\n' :: rest) = 13 :: 10 :: utf8 rest := rfl
    rw [hbytes, feeds, utf8_cons, ih]
    rfl
  | case3 c rest hc ih =>
    rw [utf8_cons, utf8_cons, ih]
    by_cases hreturn : c = '\r'
    · subst hreturn
      have halone : ∀ more, utf8 rest ≠ 10 :: more := by
        intro more heq
        obtain ⟨after, hrest⟩ := eq_feed_of_utf8 heq
        exact hc after rfl hrest
      exact (feeds.eq_3 13 (utf8 rest) fun more _ heq => halone more heq).symm
    · rw [if_neg hreturn, feeds_append_of_not_mem fun h => hreturn (eq_return_of_mem h)]

/-- The bytes of the text that is read from some bytes. -/
theorem toUTF8_of_decodeText {bytes : ByteArray} {text : String}
    (h : Tree.decodeText bytes = .ok text) : text.toUTF8.data.toList = feeds bytes.data.toList := by
  unfold Tree.decodeText at h
  split at h
  · rename_i raw hraw
    have hbytes : bytes = raw.toUTF8 := by
      unfold String.fromUTF8? at hraw
      split at hraw
      · cases hraw
        rfl
      · cases hraw
    cases h
    rw [utf8_toList, String.toList_ofList, feeds_utf8, hbytes, utf8_toList]
  · cases h

end Checkup.Text
