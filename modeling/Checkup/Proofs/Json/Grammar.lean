import Checkup.Proofs.Json.RoundTrip

/-!
# Strict JSON

The grammar that all readers of JSON agree on. It has numerals only for numbers with digits, so a
value is written strictly exactly if its numbers are all finite: the words for the others stand
outside of every string, where strict text has no capital letter but the mark of an exponent.

* `StrictText`: the texts of the grammar.
* `strict_write`: a readable value with finite numbers is written strictly.
* `Strict.isBare`: no word for a number without digits stands in strict text.
* `strictText_pretty_iff`: when a written value is strict JSON.
-/

namespace Checkup.Json

/-! ## The grammar -/

/-- A hexadecimal digit in either case. -/
def IsHexDigit (c : Char) : Prop :=
  isDigit c = true ∨ ('a' ≤ c ∧ c ≤ 'f') ∨ ('A' ≤ c ∧ c ≤ 'F')

instance (c : Char) : Decidable (IsHexDigit c) :=
  inferInstanceAs (Decidable (isDigit c = true ∨ ('a' ≤ c ∧ c ≤ 'f') ∨ ('A' ≤ c ∧ c ≤ 'F')))

/-- The characters that stand for one after a backslash. -/
def shortMarks : List Char := ['"', '\\', '/', 'b', 'f', 'n', 'r', 't']

/-- What stands between the quotes of a string. -/
inductive StrictBody : List Char → Prop
  | nil : StrictBody []
  | plain {c : Char} {rest : List Char} (hcontrol : 0x20 ≤ c.toNat) (hquote : c ≠ '"')
    (hescape : c ≠ '\\') (h : StrictBody rest) : StrictBody (c :: rest)
  | short {c : Char} {rest : List Char} (hc : c ∈ shortMarks) (h : StrictBody rest) :
    StrictBody ('\\' :: c :: rest)
  | unit {digits rest : List Char} (hlength : digits.length = 4)
    (hdigits : ∀ d ∈ digits, IsHexDigit d) (h : StrictBody rest) :
    StrictBody ('\\' :: 'u' :: (digits ++ rest))

/-- A string with its quotes. -/
def StrictString (s : List Char) : Prop := ∃ body, StrictBody body ∧ s = '"' :: (body ++ ['"'])

/-- The fraction of a numeral, if it has one. -/
inductive StrictFraction : List Char → Prop
  | none : StrictFraction []
  | some {ds : List Char} (hd : Digits ds) (hne : ds ≠ []) : StrictFraction ('.' :: ds)

/-- The exponent of a numeral, if it has one. -/
inductive StrictExponent : List Char → Prop
  | none : StrictExponent []
  | some {mark : Char} {sign ds : List Char} (hm : mark ∈ ['e', 'E'])
    (hs : sign ∈ [[], ['+'], ['-']]) (hd : Digits ds) (hne : ds ≠ []) :
    StrictExponent (mark :: (sign ++ ds))

/-- A numeral: whole digits without a leading zero, and perhaps a sign, a fraction and an
exponent. -/
inductive StrictNumeral : List Char → Prop
  | parts {sign whole fraction exponent : List Char} (hs : sign ∈ [[], ['-']]) (hw : IsWhole whole)
    (hf : StrictFraction fraction) (he : StrictExponent exponent) :
    StrictNumeral (sign ++ (whole ++ (fraction ++ exponent)))

/-- The words that are values. -/
def strictWords : List (List Char) :=
  [['n', 'u', 'l', 'l'], ['t', 'r', 'u', 'e'], ['f', 'a', 'l', 's', 'e']]

/-- The phrases of JSON text: values, members of objects, and lists of either between commas. -/
inductive Phrase
  | value
  | member
  | listOf (part : Phrase)

/-- A text is a phrase of strict JSON. Blanks may stand around the brackets, commas and colons. -/
inductive Strict : Phrase → List Char → Prop
  | word {s : List Char} (h : s ∈ strictWords) : Strict .value s
  | numeral {s : List Char} (h : StrictNumeral s) : Strict .value s
  | string {s : List Char} (h : StrictString s) : Strict .value s
  | emptyArray {blanks : List Char} (hb : Blanks blanks) : Strict .value ('[' :: (blanks ++ [']']))
  | array {s : List Char} (h : Strict (.listOf .value) s) : Strict .value ('[' :: (s ++ [']']))
  | emptyObject {blanks : List Char} (hb : Blanks blanks) :
    Strict .value ('\x7b' :: (blanks ++ ['\x7d']))
  | object {s : List Char} (h : Strict (.listOf .member) s) :
    Strict .value ('\x7b' :: (s ++ ['\x7d']))
  | member {name before after s : List Char} (hn : StrictString name) (hb : Blanks before)
    (ha : Blanks after) (h : Strict .value s) :
    Strict .member (name ++ (before ++ ':' :: (after ++ s)))
  | last {part : Phrase} {before s after : List Char} (hb : Blanks before) (h : Strict part s)
    (ha : Blanks after) : Strict (.listOf part) (before ++ (s ++ after))
  | more {part : Phrase} {before s after rest : List Char} (hb : Blanks before) (h : Strict part s)
    (ha : Blanks after) (hrest : Strict (.listOf part) rest) :
    Strict (.listOf part) (before ++ (s ++ (after ++ ',' :: rest)))

/-- A whole text of strict JSON: a value, with blanks around it. -/
def StrictText (s : List Char) : Prop := ∃ before v after,
  Blanks before ∧ Strict .value v ∧ Blanks after ∧ s = before ++ (v ++ after)

/-- All numbers in a value are finite. -/
inductive Finite : Json → Prop
  | null : Finite .null
  | bool (b : Bool) : Finite (.bool b)
  | int (n : Int) : Finite (.int n)
  | float {x : Number.Binary64} (h : x.isFinite = true) : Finite (.float x)
  | str (s : String) : Finite (.str s)
  | loose (points : List Nat) : Finite (.loose points)
  | arr {items : List Json} (h : ∀ v ∈ items, Finite v) : Finite (.arr items)
  | obj {members : Members} (h : ∀ m ∈ members, Finite m.2) : Finite (.obj members)

/-! ## Writing strings and numerals -/

theorem blanks_nil : Blanks [] := List.forall_mem_nil _

theorem StrictBody.append {s t : List Char} (hs : StrictBody s) (ht : StrictBody t) :
    StrictBody (s ++ t) := by
  induction hs with
  | nil => exact ht
  | plain hcontrol hquote hescape _ ih => exact .plain hcontrol hquote hescape ih
  | short hc _ ih => exact .short hc ih
  | @unit digits rest hlength hdigits _ ih =>
    simp only [List.cons_append, List.append_assoc]
    exact .unit hlength hdigits ih

theorem StrictBody.flatMap {α : Type} {f : α → List Char} {l : List α}
    (h : ∀ a ∈ l, StrictBody (f a)) : StrictBody (l.flatMap f) := by
  induction l with
  | nil => exact .nil
  | cons a rest ih =>
    obtain ⟨ha, hrest⟩ := List.forall_mem_cons.mp h
    rw [List.flatMap_cons]
    exact ha.append (ih hrest)

theorem isHexDigit_hexDigit : ∀ d : Fin 16, IsHexDigit (Number.hexDigit d.val) := by decide

theorem strictBody_unitEscape (n : Nat) : StrictBody (unitEscape n) := by
  have hdigit (k : Nat) : IsHexDigit (Number.hexDigit (k % 16)) :=
    isHexDigit_hexDigit ⟨k % 16, Nat.mod_lt k (by decide)⟩
  have hdigits : ∀ d ∈ [Number.hexDigit (n / 4096 % 16), Number.hexDigit (n / 256 % 16),
      Number.hexDigit (n / 16 % 16), Number.hexDigit (n % 16)], IsHexDigit d := by
    simp [hdigit]
  exact .unit rfl hdigits .nil

theorem mem_shortMarks {c : Char} {n : Nat} (h : shortEscape? c = some n) : c ∈ shortMarks := by
  unfold shortEscape? at h
  split at h <;> cases h <;> decide

theorem strictBody_escapeChar (c : Char) : StrictBody (escapeChar c) := by
  have hescaped := escaped_escapeChar c
  generalize escapeChar c = text at hescaped ⊢
  cases hescaped with
  | short hmark => exact .short (mem_shortMarks hmark) .nil
  | plain hquote hescape hcontrol => exact .plain hcontrol hquote hescape .nil
  | units => exact .flatMap fun n _ => strictBody_unitEscape n

theorem strictString_quotedPoints (points : List Nat) : StrictString (quotedPoints points) := by
  refine ⟨_, .flatMap fun n _ => ?_, rfl⟩
  unfold escapePoint
  split
  · exact strictBody_unitEscape n
  · exact strictBody_escapeChar _

theorem strictString_quoted (s : String) : StrictString (quoted s.toList) :=
  ⟨_, .flatMap fun c _ => strictBody_escapeChar c, rfl⟩

theorem strictString_keyText (key : Label) : StrictString (keyText key) := by
  cases key with
  | text s => exact strictString_quoted s
  | loose points => exact strictString_quotedPoints points

theorem strictNumeral_intText (n : Int) : StrictNumeral (Number.intText n).toList := by
  have hw := isWhole_decimalDigits n.natAbs
  rw [intText_eq]
  split
  · simpa using StrictNumeral.parts (by decide : ['-'] ∈ [[], ['-']]) hw .none .none
  · simpa using StrictNumeral.parts (by decide : [] ∈ [[], ['-']]) hw .none .none

theorem strictNumeral_isNumeral {text : List Char} {digits : Nat} {e : Int}
    (h : IsNumeral text digits e) {sign : List Char} (hs : sign ∈ [[], ['-']]) :
    StrictNumeral (sign ++ text) := by
  obtain ⟨whole, fraction, power, rfl, hw, hf, hp, -, -⟩ := h
  refine .parts hs hw ?_ ?_
  · unfold fractionText
    split
    · exact .none
    · rename_i hne
      exact .some hf hne
  · cases power with
    | none => exact .none
    | some p =>
      obtain ⟨down, ds⟩ := p
      obtain ⟨hd, hne⟩ := hp
      cases down with
      | true =>
        have hminus : ['-'] ∈ [[], ['+'], ['-']] := by decide
        exact .some (by decide) hminus hd hne
      | false =>
        have hplus : ['+'] ∈ [[], ['+'], ['-']] := by decide
        exact .some (by decide) hplus hd hne

theorem strictNumeral_floatText {x : Number.Binary64} (h : IsRead x) (hx : x.isFinite = true) :
    StrictNumeral (x.text numberLayout).toList := by
  cases x with
  | finite negative m e =>
    obtain ⟨body, digits, exponent, hbody, -, htext⟩ := text_finite negative h
    rw [htext]
    cases negative with
    | true => exact strictNumeral_isNumeral hbody (List.mem_pair.mpr (.inr rfl))
    | false => exact strictNumeral_isNumeral hbody (List.mem_pair.mpr (.inl rfl))
  | infinite negative => cases hx
  | notANumber => cases hx

theorem strict_atomText {v : Json} (h : Readable v) (hv : Finite v) (ha : IsAtom v) :
    Strict .value (atomText v) := by
  cases h with
  | null => exact .word (by decide)
  | bool b => cases b <;> exact .word (by decide)
  | int _ => exact .numeral (strictNumeral_intText _)
  | float h =>
    cases hv with
    | float hx => exact .numeral (strictNumeral_floatText h hx)
  | str s => exact .string (strictString_quoted s)
  | loose _ => exact .string (strictString_quotedPoints _)
  | arr _ => exact ha.elim
  | obj _ _ _ => exact ha.elim

/-! ## Writing values -/

variable {spacing : Spacing}

theorem writeItems_eq (depth : Nat) (vs : List Json) : writeItems spacing depth vs =
    vs.flatMap fun v => spacing.between depth ++ write spacing (depth + 1) v := by
  induction vs with
  | nil => rw [writeItems, List.flatMap_nil]
  | cons v rest ih => rw [writeItems, List.flatMap_cons, ih, List.append_assoc]

/-- A member as it is written. -/
def partText (spacing : Spacing) (depth : Nat) (m : Label × Json) : List Char :=
  keyText m.1 ++ ':' :: ' ' :: write spacing (depth + 1) m.2

theorem writeMembers_eq (depth : Nat) (ms : Members) : writeMembers spacing depth ms =
    ms.flatMap fun m => spacing.between depth ++ partText spacing depth m := by
  induction ms with
  | nil => rw [writeMembers, List.flatMap_nil]
  | cons m rest ih =>
    obtain ⟨key, v⟩ := m
    rw [writeMembers, List.flatMap_cons, ih, partText]
    simp only [List.append_assoc, List.cons_append]

theorem write_arr_cons (depth : Nat) (first : Json) (others : List Json) :
    write spacing depth (.arr (first :: others)) =
      '[' :: (spacing.opening depth ++ write spacing (depth + 1) first ++
        (others.flatMap (fun v => spacing.between depth ++ write spacing (depth + 1) v) ++
          (spacing.closing depth ++ [']']))) := by
  rw [write, writeItems_eq]

theorem write_obj_cons (depth : Nat) (first : Label × Json) (others : Members) :
    write spacing depth (.obj (first :: others)) =
      '\x7b' :: (spacing.opening depth ++ partText spacing depth first ++
        (others.flatMap (fun m => spacing.between depth ++ partText spacing depth m) ++
          (spacing.closing depth ++ ['\x7d']))) := by
  obtain ⟨key, v⟩ := first
  rw [write, writeMembers_eq, partText]

/-- Parts that are strict, with the separators between them, are a strict list. -/
theorem strict_list (hs : spacing.IsBlank) (depth : Nat) {α : Type} {part : Phrase}
    {f : α → List Char} {first : α} {others : List α}
    (h : ∀ a ∈ first :: others, Strict part (f a)) {before : List Char} (hb : Blanks before) :
    Strict (.listOf part) (before ++ f first ++
      (others.flatMap (fun a => spacing.between depth ++ f a) ++ spacing.closing depth)) := by
  induction others generalizing first before with
  | nil =>
    have hfirst := h first (List.mem_cons_self ..)
    simpa using Strict.last hb hfirst (hs.closing depth)
  | cons second others ih =>
    obtain ⟨hfirst, hothers⟩ := List.forall_mem_cons.mp h
    obtain ⟨blanks, hbetween, hblanks⟩ := hs.between depth
    simpa [hbetween] using Strict.more hb hfirst blanks_nil (ih hothers hblanks)

theorem strict_partText (depth : Nat) {m : Label × Json}
    (h : Strict .value (write spacing (depth + 1) m.2)) :
    Strict .member (partText spacing depth m) := by
  have hblank : Blanks [' '] := by
    intro c hc
    rw [List.mem_singleton.mp hc]
    rfl
  exact .member (strictString_keyText m.1) blanks_nil hblank h

/-- A readable value with finite numbers is written strictly. -/
theorem strict_write (hs : spacing.IsBlank) {v : Json} (h : Readable v) (hv : Finite v)
    (depth : Nat) : Strict .value (write spacing depth v) := by
  have hatom {a : Json} (hr : Readable a) (ha : IsAtom a) (hf : Finite a) (depth : Nat) :
      Strict .value (write spacing depth a) := by
    rw [write_of_isAtom spacing depth ha]
    exact strict_atomText hr hf ha
  induction h generalizing depth with
  | null => exact hatom .null trivial hv depth
  | bool b => exact hatom (.bool b) trivial hv depth
  | int h => exact hatom (.int h) trivial hv depth
  | float h => exact hatom (.float h) trivial hv depth
  | str s => exact hatom (.str s) trivial hv depth
  | loose h => exact hatom (.loose h) trivial hv depth
  | @arr items h ih =>
    cases hv with
    | arr hv =>
      cases items with
      | nil =>
        rw [write]
        exact .emptyArray blanks_nil
      | cons first others =>
        rw [write_arr_cons]
        have hlist := strict_list hs depth (fun v hm => ih v hm (hv v hm) (depth + 1))
          (hs.opening depth)
        simpa only [List.append_assoc] using Strict.array hlist
  | @obj members hk hn h ih =>
    cases hv with
    | obj hv =>
      cases members with
      | nil =>
        rw [write]
        exact .emptyObject blanks_nil
      | cons first others =>
        rw [write_obj_cons]
        have hlist := strict_list hs depth
          (fun m hm => strict_partText depth (ih m hm (hv m hm) (depth + 1))) (hs.opening depth)
        simpa only [List.append_assoc] using Strict.object hlist

/-! ## Outside of strings -/

/-- The characters that stand outside of strings; the first argument tells whether the text begins
inside of one. -/
def outside : Bool → List Char → List Char
  | _, [] => []
  | false, c :: rest => if c = '"' then outside true rest else c :: outside false rest
  | true, '\\' :: _ :: rest => outside true rest
  | true, c :: rest => if c = '"' then outside false rest else outside true rest

/-- The text ends outside of strings, with these characters outside. -/
def Leaves (s left : List Char) : Prop := ∀ rest, outside false (s ++ rest) = left ++ outside false rest

/-- The text ends outside of strings. -/
def Closed (s : List Char) : Prop := ∃ left, Leaves s left

/-- The character begins the word for a number without digits. -/
def IsInitial (c : Char) : Prop := c = 'I' ∨ c = 'N'

instance (c : Char) : Decidable (IsInitial c) := inferInstanceAs (Decidable (c = 'I' ∨ c = 'N'))

/-- A text that ends outside of strings, and has none of the words for numbers without digits. -/
def IsBare (s : List Char) : Prop := ∃ left, Leaves s left ∧ ∀ c ∈ left, ¬ IsInitial c

/-- A text that ends outside of strings, and has one of the words for numbers without digits. -/
def IsMarked (s : List Char) : Prop := ∃ left, Leaves s left ∧ ∃ c ∈ left, IsInitial c

theorem Leaves.append {s t left right : List Char} (hs : Leaves s left) (ht : Leaves t right) :
    Leaves (s ++ t) (left ++ right) := by
  intro rest
  rw [List.append_assoc, hs, ht, List.append_assoc]

theorem leaves_plain {s : List Char} (h : ∀ c ∈ s, c ≠ '"') : Leaves s s := by
  intro rest
  induction s with
  | nil => rfl
  | cons c more ih =>
    obtain ⟨hc, hmore⟩ := List.forall_mem_cons.mp h
    rw [List.cons_append, outside, if_neg hc, ih hmore, List.cons_append]

theorem outside_strictBody {body : List Char} (h : StrictBody body) (rest : List Char) :
    outside true (body ++ rest) = outside true rest := by
  induction h with
  | nil => rfl
  | @plain c more _ hquote hescape _ ih =>
    rw [List.cons_append, outside, if_neg hquote, ih]
    intro _ _ heq _
    exact hescape heq
  | short _ _ ih => exact ih
  | @unit digits more hlength hdigits _ ih =>
    have hskip (ds : List Char) (hds : ∀ d ∈ ds, IsHexDigit d) (tail : List Char) :
        outside true (ds ++ tail) = outside true tail := by
      induction ds with
      | nil => rfl
      | cons d ds ihds =>
        obtain ⟨hd, hmore⟩ := List.forall_mem_cons.mp hds
        have hquote : d ≠ '"' := by
          rintro rfl
          exact absurd hd (by decide)
        rw [List.cons_append, outside, if_neg hquote, ihds hmore]
        rintro _ _ rfl _
        exact absurd hd (by decide)
    simp only [List.cons_append, List.append_assoc]
    rw [outside, hskip digits hdigits, ih]

theorem StrictString.leaves {s : List Char} (h : StrictString s) : Leaves s [] := by
  obtain ⟨body, hbody, rfl⟩ := h
  intro rest
  have hopen : outside false ('"' :: (body ++ ['"']) ++ rest) = outside true (body ++ '"' :: rest) := by
    simp [outside]
  rw [hopen, outside_strictBody hbody]
  rfl

theorem IsBare.closed {s : List Char} (h : IsBare s) : Closed s := h.imp fun _ h => h.1

theorem IsMarked.closed {s : List Char} (h : IsMarked s) : Closed s := h.imp fun _ h => h.1

theorem IsBare.append {s t : List Char} (hs : IsBare s) (ht : IsBare t) : IsBare (s ++ t) := by
  obtain ⟨left, hleft, hl⟩ := hs
  obtain ⟨right, hright, hr⟩ := ht
  exact ⟨_, hleft.append hright, List.forall_mem_append.mpr ⟨hl, hr⟩⟩

theorem IsMarked.append_left {s t : List Char} (hs : IsMarked s) (ht : Closed t) :
    IsMarked (s ++ t) := by
  obtain ⟨left, hleft, c, hc, hinitial⟩ := hs
  obtain ⟨right, hright⟩ := ht
  exact ⟨_, hleft.append hright, c, List.mem_append_left right hc, hinitial⟩

theorem IsMarked.append_right {s t : List Char} (hs : Closed s) (ht : IsMarked t) :
    IsMarked (s ++ t) := by
  obtain ⟨left, hleft⟩ := hs
  obtain ⟨right, hright, c, hc, hinitial⟩ := ht
  exact ⟨_, hleft.append hright, c, List.mem_append_right left hc, hinitial⟩

theorem IsBare.not_isMarked {s : List Char} (h : IsBare s) : ¬ IsMarked s := by
  rintro ⟨right, hright, c, hc, hinitial⟩
  obtain ⟨left, hleft, hl⟩ := h
  have heq : left ++ outside false [] = right ++ outside false [] := (hleft []).symm.trans (hright [])
  rw [List.append_cancel_right heq] at hl
  exact hl c hc hinitial

theorem isBare_plain {s : List Char} (h : ∀ c ∈ s, c ≠ '"' ∧ ¬ IsInitial c) : IsBare s :=
  ⟨s, leaves_plain fun c hc => (h c hc).1, fun c hc => (h c hc).2⟩

theorem isBare_string {s : List Char} (h : StrictString s) : IsBare s :=
  ⟨[], h.leaves, List.forall_mem_nil _⟩

theorem IsBare.cons {c : Char} {s : List Char} (h : IsBare s) (hc : c ≠ '"' ∧ ¬ IsInitial c) :
    IsBare (c :: s) :=
  (isBare_plain (s := [c]) (List.forall_mem_singleton.mpr hc)).append h

theorem IsBare.enclose {c d : Char} {s : List Char} (h : IsBare s) (hc : c ≠ '"' ∧ ¬ IsInitial c)
    (hd : d ≠ '"' ∧ ¬ IsInitial d) : IsBare (c :: (s ++ [d])) :=
  (h.append (isBare_plain (List.forall_mem_singleton.mpr hd))).cons hc

theorem isBare_blanks {s : List Char} (h : Blanks s) : IsBare s := by
  refine isBare_plain fun c hc => ?_
  have hspace := h c hc
  constructor
  · rintro rfl
    cases hspace
  · rintro (rfl | rfl) <;> cases hspace

theorem isBare_digits {s : List Char} (h : Digits s) : IsBare s := by
  refine isBare_plain fun c hc => ?_
  have hdigit := h c hc
  constructor
  · rintro rfl
    cases hdigit
  · rintro (rfl | rfl) <;> cases hdigit

theorem isBare_sign {s : List Char} (h : s ∈ [[], ['+'], ['-']]) : IsBare s := by
  have hsigns : ∀ s ∈ [[], ['+'], ['-']], ∀ c ∈ s, c ≠ '"' ∧ ¬ IsInitial c := by simp [IsInitial]
  exact isBare_plain (hsigns s h)

theorem StrictFraction.isBare {s : List Char} (h : StrictFraction s) : IsBare s := by
  cases h with
  | none => exact isBare_sign (by simp)
  | some hd _ => exact (isBare_digits hd).cons (by decide)

theorem StrictExponent.isBare {s : List Char} (h : StrictExponent s) : IsBare s := by
  cases h with
  | none => exact isBare_sign (by simp)
  | some hm hs hd _ =>
    refine ((isBare_sign hs).append (isBare_digits hd)).cons ?_
    rcases List.mem_pair.mp hm with rfl | rfl
    · decide
    · decide

theorem StrictNumeral.isBare {s : List Char} (h : StrictNumeral s) : IsBare s := by
  obtain ⟨hsign, ⟨hwhole, -⟩, hfraction, hexponent⟩ := h
  have hsigns : ∀ s ∈ [[], ['-']], s ∈ [[], ['+'], ['-']] := by simp
  have hs := isBare_sign (hsigns _ hsign)
  exact hs.append ((isBare_digits hwhole).append (hfraction.isBare.append hexponent.isBare))

theorem isBare_word {s : List Char} (h : s ∈ strictWords) : IsBare s := by
  have hwords : ∀ s ∈ strictWords, ∀ c ∈ s, c ≠ '"' ∧ ¬ IsInitial c := by
    simp [strictWords, IsInitial]
  exact isBare_plain (hwords s h)

/-- No word for a number without digits stands in strict text. -/
theorem Strict.isBare {p : Phrase} {s : List Char} (h : Strict p s) : IsBare s := by
  induction h with
  | word h => exact isBare_word h
  | numeral h => exact h.isBare
  | string h => exact isBare_string h
  | emptyArray hb => exact (isBare_blanks hb).enclose (by decide) (by decide)
  | array _ ih => exact ih.enclose (by decide) (by decide)
  | emptyObject hb => exact (isBare_blanks hb).enclose (by decide) (by decide)
  | object _ ih => exact ih.enclose (by decide) (by decide)
  | member hn hb ha _ ih =>
    have hvalue := ((isBare_blanks ha).append ih).cons (c := ':') (by decide)
    exact (isBare_string hn).append ((isBare_blanks hb).append hvalue)
  | last hb _ ha ih => exact (isBare_blanks hb).append (ih.append (isBare_blanks ha))
  | more hb _ ha _ ih ihrest =>
    have hrest := (isBare_blanks ha).append (ihrest.cons (c := ',') (by decide))
    exact (isBare_blanks hb).append (ih.append hrest)

/-! ## Words for numbers without digits -/

theorem isMarked_floatText {x : Number.Binary64} (hx : x.isFinite = false) :
    IsMarked (x.text numberLayout).toList := by
  have hmark {s : List Char} (h : ∀ c ∈ s, c ≠ '"') {c : Char} (hc : c ∈ s) (hi : IsInitial c) :
      IsMarked s := ⟨s, leaves_plain h, c, hc, hi⟩
  cases x with
  | finite negative m e => cases hx
  | infinite negative =>
    have hi : IsInitial 'I' := .inl rfl
    cases negative
    · exact hmark (by simp [Number.Binary64.text, numberLayout])
        (by simp [Number.Binary64.text, numberLayout]) hi
    · exact hmark (by simp [Number.Binary64.text, numberLayout])
        (by simp [Number.Binary64.text, numberLayout]) hi
  | notANumber =>
    have hi : IsInitial 'N' := .inr rfl
    exact hmark (by simp [Number.Binary64.text, numberLayout])
      (by simp [Number.Binary64.text, numberLayout]) hi

theorem isMarked_atomText {v : Json} (hv : ¬ Finite v) (ha : IsAtom v) : IsMarked (atomText v) := by
  cases v with
  | null => exact absurd .null hv
  | bool b => exact absurd (.bool b) hv
  | int n => exact absurd (.int n) hv
  | float x =>
    cases hx : x.isFinite with
    | true => exact absurd (.float hx) hv
    | false => exact isMarked_floatText hx
  | str s => exact absurd (.str s) hv
  | loose points => exact absurd (.loose points) hv
  | arr items => exact ha.elim
  | obj members => exact ha.elim

theorem Closed.append {s t : List Char} (hs : Closed s) (ht : Closed t) : Closed (s ++ t) := by
  obtain ⟨left, hleft⟩ := hs
  obtain ⟨right, hright⟩ := ht
  exact ⟨left ++ right, hleft.append hright⟩

theorem closed_flatMap {α : Type} {f : α → List Char} {l : List α} (h : ∀ a ∈ l, Closed (f a)) :
    Closed (l.flatMap f) := by
  induction l with
  | nil => exact ⟨[], leaves_plain (List.forall_mem_nil _)⟩
  | cons a rest ih =>
    obtain ⟨ha, hrest⟩ := List.forall_mem_cons.mp h
    rw [List.flatMap_cons]
    exact ha.append (ih hrest)

theorem isMarked_flatMap {α : Type} {f : α → List Char} {l : List α} (hc : ∀ a ∈ l, Closed (f a))
    {a : α} (ha : a ∈ l) (hm : IsMarked (f a)) : IsMarked (l.flatMap f) := by
  obtain ⟨front, back, rfl⟩ := List.append_of_mem ha
  have hfront := closed_flatMap fun b hb => hc b (List.mem_append_left _ hb)
  have hback := closed_flatMap fun b hb => hc b (List.mem_append_right _ (List.mem_cons_of_mem a hb))
  rw [List.flatMap_append, List.flatMap_cons]
  exact .append_right hfront (hm.append_left hback)

theorem isBare_between (hs : spacing.IsBlank) (depth : Nat) : IsBare (spacing.between depth) := by
  obtain ⟨blanks, hbetween, hblanks⟩ := hs.between depth
  rw [hbetween]
  exact (isBare_blanks hblanks).cons (by decide)

/-- A container has a word for a number without digits if one of its parts has. -/
theorem isMarked_list (hs : spacing.IsBlank) (depth : Nat) {α : Type} {f : α → List Char}
    {first : α} {others : List α} (hc : ∀ a ∈ first :: others, Closed (f a))
    {a : α} (ha : a ∈ first :: others) (hm : IsMarked (f a)) {before after : List Char}
    (hb : Closed before) (hafter : Closed after) :
    IsMarked (before ++ f first ++
      (others.flatMap (fun a => spacing.between depth ++ f a) ++ after)) := by
  have hbetween := (isBare_between hs depth).closed
  obtain ⟨hfirst, hothers⟩ := List.forall_mem_cons.mp hc
  have hparts : ∀ b ∈ others, Closed (spacing.between depth ++ f b) :=
    fun b hb => hbetween.append (hothers b hb)
  rcases List.mem_cons.mp ha with rfl | ha
  · exact (hm.append_right hb).append_left ((closed_flatMap hparts).append hafter)
  · have hlater := isMarked_flatMap hparts ha (hm.append_right hbetween)
    exact .append_right (hb.append hfirst) (hlater.append_left hafter)

theorem isBare_nameText (key : Label) : IsBare (keyText key ++ [':', ' ']) :=
  (isBare_string (strictString_keyText key)).append (isBare_plain (by simp [IsInitial]))

theorem partText_eq (depth : Nat) (m : Label × Json) : partText spacing depth m =
    keyText m.1 ++ [':', ' '] ++ write spacing (depth + 1) m.2 := by
  rw [partText, List.append_assoc]
  rfl

theorem closed_bracket {c : Char} (hc : c ≠ '"') : Closed [c] :=
  ⟨[c], leaves_plain (List.forall_mem_singleton.mpr hc)⟩

theorem closed_opening (hs : spacing.IsBlank) (depth : Nat) : Closed (spacing.opening depth) :=
  (isBare_blanks (hs.opening depth)).closed

theorem closed_closing (hs : spacing.IsBlank) {c : Char} (hc : c ≠ '"') (depth : Nat) :
    Closed (spacing.closing depth ++ [c]) :=
  (isBare_blanks (hs.closing depth)).closed.append (closed_bracket hc)

theorem isMarked_write_atom {v : Json} (hv : ¬ Finite v) (ha : IsAtom v) (depth : Nat) :
    IsMarked (write spacing depth v) := by
  rw [write_of_isAtom spacing depth ha]
  exact isMarked_atomText hv ha

theorem closed_write (hs : spacing.IsBlank) {v : Json} (h : Readable v) (depth : Nat)
    (hv : ¬ Finite v → IsMarked (write spacing depth v)) : Closed (write spacing depth v) := by
  by_cases hf : Finite v
  · exact (strict_write hs h hf depth).isBare.closed
  · exact (hv hf).closed

/-- A number that is not finite shows in what is written. -/
theorem isMarked_write (hs : spacing.IsBlank) {v : Json} (h : Readable v) (hv : ¬ Finite v)
    (depth : Nat) : IsMarked (write spacing depth v) := by
  induction h generalizing depth with
  | null => exact isMarked_write_atom hv trivial depth
  | bool b => exact isMarked_write_atom hv trivial depth
  | int h => exact isMarked_write_atom hv trivial depth
  | float h => exact isMarked_write_atom hv trivial depth
  | str s => exact isMarked_write_atom hv trivial depth
  | loose h => exact isMarked_write_atom hv trivial depth
  | @arr items h ih =>
    obtain ⟨v, hm, hf⟩ : ∃ v ∈ items, ¬ Finite v := by
      by_contra hall
      push Not at hall
      exact hv (.arr hall)
    cases items with
    | nil => cases hm
    | cons first others =>
      rw [write_arr_cons]
      have hparts := fun w hw =>
        closed_write hs (h w hw) (depth + 1) fun hf => ih w hw hf (depth + 1)
      exact .append_right (closed_bracket (by decide)) (isMarked_list hs depth hparts hm
        (ih v hm hf (depth + 1)) (closed_opening hs depth) (closed_closing hs (by decide) depth))
  | @obj members hk hn h ih =>
    obtain ⟨m, hm, hf⟩ : ∃ m ∈ members, ¬ Finite m.2 := by
      by_contra hall
      push Not at hall
      exact hv (.obj hall)
    cases members with
    | nil => cases hm
    | cons first others =>
      rw [write_obj_cons]
      have hparts : ∀ o ∈ first :: others, Closed (partText spacing depth o) := by
        intro o ho
        rw [partText_eq]
        exact (isBare_nameText o.1).closed.append
          (closed_write hs (h o ho) (depth + 1) fun hf => ih o ho hf (depth + 1))
      have hpart : IsMarked (partText spacing depth m) := by
        rw [partText_eq]
        exact .append_right (isBare_nameText m.1).closed (ih m hm hf (depth + 1))
      exact .append_right (closed_bracket (by decide)) (isMarked_list hs depth hparts hm hpart
        (closed_opening hs depth) (closed_closing hs (by decide) depth))

theorem StrictText.isBare {s : List Char} (h : StrictText s) : IsBare s := by
  obtain ⟨before, v, after, hb, hv, ha, rfl⟩ := h
  exact (isBare_blanks hb).append (hv.isBare.append (isBare_blanks ha))

/-- A readable value is written as strict JSON exactly if all its numbers are finite. -/
theorem strictText_pretty_iff {v : Json} (h : Readable v) :
    StrictText (v.pretty ++ "\n").toList ↔ Finite v := by
  have htext : (v.pretty ++ "\n").toList = write .indented 0 v ++ ['\n'] := by
    rw [String.toList_append, pretty, String.toList_ofList]
    rfl
  have hend : Blanks ['\n'] := by
    intro c hc
    rw [List.mem_singleton.mp hc]
    rfl
  rw [htext]
  constructor
  · intro hstrict
    by_contra hv
    have hmarked := isMarked_write isBlank_indented h hv 0
    exact hstrict.isBare.not_isMarked (hmarked.append_left (isBare_blanks hend).closed)
  · intro hv
    exact ⟨[], _, ['\n'], blanks_nil, strict_write isBlank_indented h hv 0, hend, rfl⟩

end Checkup.Json
