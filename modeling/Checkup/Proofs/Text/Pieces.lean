import Mathlib.Data.List.DropRight
import Mathlib.Data.List.Infix
import Checkup.Text.Search

/-!
# Where texts are cut

A text is cut at the characters of a class, and each piece stands between two of them. A text that is cut
before its first character of a class, or before the blanks at its end, is cut so in one way only.

* `splitWhere_append_stop`, `splitWhere_of_no_stop`: the pieces of a text that is put together.
* `exists_of_mem_splitWhere`: where a piece stands.
* `append_cons_unique`, `append_blanks_unique`: texts that are cut in one way.
* `Unbordered.eq_nil_or_prefix`: a text that does not overlap itself stands apart from itself.
-/

namespace Checkup.Text

/-! ## Pieces -/

theorem splitWhere_append_stop {stops : Char → Bool} (front : List Char) {s : Char}
    (hs : stops s = true) (back : List Char) :
    splitWhere stops (front ++ s :: back) = splitWhere stops front ++ splitWhere stops back := by
  induction front with
  | nil => simp [splitWhere, hs]
  | cons c rest ih =>
    simp only [List.cons_append, splitWhere]
    split
    · rw [ih, List.cons_append]
    · rw [ih]
      cases hpieces : splitWhere stops rest with
      | nil => exact absurd hpieces (splitWhere_ne_nil stops rest)
      | cons piece pieces => rfl

theorem splitWhere_of_no_stop {stops : Char → Bool} {text : List Char}
    (h : ∀ c ∈ text, stops c = false) : splitWhere stops text = [text] := by
  induction text with
  | nil => rfl
  | cons c rest ih =>
    obtain ⟨hc, hrest⟩ := List.forall_mem_cons.mp h
    simp [splitWhere, hc, ih hrest]

theorem splitOn_append_cons (sep : Char) (first second : List Char) :
    splitOn sep (first ++ sep :: second) = splitOn sep first ++ splitOn sep second := by
  unfold splitOn
  exact splitWhere_append_stop first (by simp) second

theorem splitOn_of_not_mem {sep : Char} {s : List Char} (h : sep ∉ s) : splitOn sep s = [s] :=
  splitWhere_of_no_stop fun _ hc => beq_eq_false_iff_ne.mpr fun heq => h (heq ▸ hc)

/-- A text that is not cut lengthens the first piece of what follows it. -/
theorem splitOn_append_of_not_mem {sep : Char} {part rest first : List Char} {others : List (List Char)}
    (hpart : sep ∉ part) (h : splitOn sep rest = first :: others) :
    splitOn sep (part ++ rest) = (part ++ first) :: others := by
  unfold splitOn at h ⊢
  induction part with
  | nil => exact h
  | cons c part ih =>
    rw [List.mem_cons, not_or] at hpart
    rw [List.cons_append, splitWhere, if_neg (by simpa using Ne.symm hpart.1), ih hpart.2]
    rfl

/-- The first piece begins a text, and each other one stands behind a character at which it is cut. -/
theorem splitWhere_eq_cons {stops : Char → Bool} {text first : List Char} {others : List (List Char)}
    (h : splitWhere stops text = first :: others) : (∃ below, text = first ++ below) ∧
      ∀ piece ∈ others, ∃ above s below, text = above ++ s :: (piece ++ below) ∧ stops s = true := by
  induction text generalizing first others with
  | nil =>
    cases h
    exact ⟨⟨[], rfl⟩, List.forall_mem_nil _⟩
  | cons c rest ih =>
    obtain ⟨next, more, hrest⟩ := List.exists_cons_of_ne_nil (splitWhere_ne_nil stops rest)
    obtain ⟨⟨below, hbelow⟩, hmore⟩ := ih hrest
    rw [splitWhere, hrest] at h
    have hlater : ∀ piece ∈ more, ∃ above s below, c :: rest = above ++ s :: (piece ++ below) ∧
        stops s = true := by
      intro piece hpiece
      obtain ⟨above, s, below, heq, hs⟩ := hmore piece hpiece
      exact ⟨c :: above, s, below, congrArg (c :: ·) heq, hs⟩
    split at h
    · rename_i hc
      cases h
      refine ⟨⟨c :: rest, rfl⟩, List.forall_mem_cons.mpr ⟨?_, hlater⟩⟩
      exact ⟨[], c, below, congrArg (c :: ·) hbelow, hc⟩
    · cases h
      exact ⟨⟨below, congrArg (c :: ·) hbelow⟩, hlater⟩

/-- A piece stands at the start of a text or behind a character at which it is cut. -/
theorem exists_of_mem_splitWhere {stops : Char → Bool} {text piece : List Char}
    (h : piece ∈ splitWhere stops text) :
    ∃ above below, text = above ++ (piece ++ below) ∧ ∀ c ∈ above.getLast?, stops c = true := by
  obtain ⟨first, others, hsplit⟩ := List.exists_cons_of_ne_nil (splitWhere_ne_nil stops text)
  obtain ⟨⟨below, hfirst⟩, hothers⟩ := splitWhere_eq_cons hsplit
  rw [hsplit] at h
  rcases List.mem_cons.mp h with rfl | h
  · exact ⟨[], below, hfirst, fun c hc => by cases hc⟩
  · obtain ⟨above, s, below, heq, hs⟩ := hothers piece h
    refine ⟨above ++ [s], below, by rw [heq, List.append_cons], fun c hc => ?_⟩
    rw [List.getLast?_concat] at hc
    cases hc
    exact hs

/-! ## Cuts -/

/-- A text is cut at its first character of a class in one way only. -/
theorem append_cons_unique {stops : Char → Bool} {first second rest rest' : List Char} {c d : Char}
    (hfirst : ∀ e ∈ first, stops e = false) (hc : stops c = true)
    (hsecond : ∀ e ∈ second, stops e = false) (hd : stops d = true)
    (h : first ++ c :: rest = second ++ d :: rest') : first = second ∧ c = d ∧ rest = rest' := by
  induction first generalizing second with
  | nil =>
    cases second with
    | nil => exact ⟨rfl, List.cons.inj h⟩
    | cons e second =>
      obtain ⟨rfl, -⟩ := List.cons.inj h
      rw [hsecond c (List.mem_cons_self ..)] at hc
      cases hc
  | cons e first ih =>
    cases second with
    | nil =>
      obtain ⟨rfl, -⟩ := List.cons.inj h
      rw [hfirst e (List.mem_cons_self ..)] at hd
      cases hd
    | cons e' second =>
      obtain ⟨rfl, htail⟩ := List.cons.inj h
      obtain ⟨rfl, hcd, hrest⟩ := ih (fun e he => hfirst e (List.mem_cons_of_mem _ he))
        (fun e he => hsecond e (List.mem_cons_of_mem _ he)) htail
      exact ⟨rfl, hcd, hrest⟩

/-- Blanks at the end are told from what stands before them. -/
theorem append_blanks_unique {front front' blanks blanks' : List Char}
    (hfront : ∀ c ∈ front.getLast?, isBlank c = false) (hfront' : ∀ c ∈ front'.getLast?, isBlank c = false)
    (hblanks : ∀ c ∈ blanks, isBlank c = true) (hblanks' : ∀ c ∈ blanks', isBlank c = true)
    (h : front ++ blanks = front' ++ blanks') : front = front' ∧ blanks = blanks' := by
  have hcut : ∀ {front blanks : List Char}, (∀ c ∈ front.getLast?, isBlank c = false) →
      (∀ c ∈ blanks, isBlank c = true) → (front ++ blanks).rdropWhile isBlank = front := by
    intro front blanks hfront hblanks
    rw [List.rdropWhile, List.reverse_append,
      List.dropWhile_append_of_pos fun c hc => hblanks c (List.mem_reverse.mp hc)]
    rcases List.eq_nil_or_concat front with rfl | ⟨init, c, rfl⟩
    · rfl
    · have hc : isBlank c = false := hfront c (by simp)
      simp [hc]
  have hsame := congrArg (List.rdropWhile isBlank) h
  rw [hcut hfront hblanks, hcut hfront' hblanks'] at hsame
  subst hsame
  exact ⟨rfl, List.append_cancel_left h⟩

/-! ## Texts that do not overlap themselves -/

/-- No end of a text is a beginning of it, but for the whole. -/
def Unbordered {α : Type} (part : List α) : Prop :=
  ∀ k ∈ List.range part.length, k ≠ 0 → ¬ part.drop k <+: part

instance {α : Type} [DecidableEq α] (part : List α) : Decidable (Unbordered part) :=
  inferInstanceAs (Decidable (∀ k ∈ List.range part.length, k ≠ 0 → ¬ part.drop k <+: part))

/-- Where such a text stands once more behind the beginning of a text, it stands there too, or all
of it stands in between. -/
theorem Unbordered.eq_nil_or_prefix {α : Type} {part mid rest rest' : List α} (hpart : Unbordered part)
    (h : part ++ rest = mid ++ (part ++ rest')) : mid = [] ∨ part <+: mid := by
  rcases List.append_eq_append_iff.mp h with ⟨more, hmore, -⟩ | ⟨tail, htail, hrest⟩
  · exact .inr ⟨more, hmore.symm⟩
  · by_cases hnil : tail = []
    · rw [hnil, List.append_nil] at htail
      exact .inr (htail ▸ List.prefix_refl _)
    · refine .inl (by_contra fun hne => ?_)
      have hmid : mid.length ≠ 0 := fun hzero => hne (List.length_eq_zero_iff.mp hzero)
      have hlength : part.length = mid.length + tail.length := by rw [htail, List.length_append]
      have htailLength : tail.length ≠ 0 := fun hzero => hnil (List.length_eq_zero_iff.mp hzero)
      have hdrop : part.drop mid.length = tail := by rw [htail, List.drop_left]
      refine hpart mid.length (List.mem_range.mpr (by omega)) hmid (hdrop ▸ ?_)
      refine List.prefix_of_prefix_length_le (List.prefix_append tail rest) ?_ (by omega)
      exact hrest ▸ List.prefix_append part rest'

end Checkup.Text
