import Checkup.Text.Search

/-!
# Shell patterns

A shell pattern is a sequence of items: a star for any text, a question mark for any character, a
set of characters in brackets, or a character for itself. A pattern matches whole texts; a star also
matches slashes.

* `matchesText_eq_fits`: a text is matched as the definition `fits` says.
* `fits_literal`: without items of a special kind a pattern matches its own text only.
-/

namespace Checkup

/-- The characters a pattern's brackets stand for: single ones and closed ranges, or all others. -/
structure CharSet where
  negated : Bool
  singles : List Char
  ranges : List (Char × Char)
  deriving DecidableEq, Repr, Inhabited

/-- The set has the character. -/
def CharSet.has (set : CharSet) (c : Char) : Bool :=
  (set.singles.contains c || set.ranges.any fun r => decide (r.1 ≤ c) && decide (c ≤ r.2)) !=
    set.negated

/-- An item of a shell pattern. -/
inductive GlobItem
  | star
  | anyChar
  | set (s : CharSet)
  | char (c : Char)
  deriving DecidableEq, Repr, Inhabited

/-- A shell pattern. -/
abbrev Glob := List GlobItem

namespace Glob

/-- Some end of the text satisfies a test. -/
def someSuffix (test : List Char → Bool) : List Char → Bool
  | [] => test []
  | c :: rest => test (c :: rest) || someSuffix test rest

/-- The pattern matches the whole text. -/
def fits : Glob → List Char → Bool
  | [], text => text.isEmpty
  | .star :: items, text => someSuffix (Glob.fits items) text
  | .anyChar :: items, _ :: text => Glob.fits items text
  | .set s :: items, c :: text => s.has c && Glob.fits items text
  | .char d :: items, c :: text => d == c && Glob.fits items text
  | _ :: _, [] => false

/-- What came of matching a pattern with a text. -/
inductive Outcome
  | fit
  /-- The pattern does not match the text. -/
  | misfit
  /-- The pattern matches neither the text nor any end of it. -/
  | hopeless
  deriving DecidableEq, Repr

/-- The outcome of matching with the ends of a text from the longest one on, for what comes behind a
star. No end is left to try when one is hopeless. -/
def seek (test : List Char → Outcome) : List Char → Outcome
  | [] => if test [] = .fit then .fit else .hopeless
  | c :: rest =>
    match test (c :: rest) with
    | .misfit => seek test rest
    | found => found

/-- Matches a pattern with a whole text. A star whose rest is found nowhere ends the attempt, so an
earlier star does not try it again. -/
def outcome : Glob → List Char → Outcome
  | [], text => if text.isEmpty then .fit else .misfit
  | .star :: items, text => seek (Glob.outcome items) text
  | .anyChar :: items, _ :: text => Glob.outcome items text
  | .set s :: items, c :: text => if s.has c then Glob.outcome items text else .misfit
  | .char d :: items, c :: text => if d == c then Glob.outcome items text else .misfit
  | _ :: _, [] => .misfit

/-! ## Reading a pattern -/

/-- The text in brackets and what follows the closing one. A bracket that comes first, or directly
after the mark of negation, is part of the text. -/
def bracketBody? (s : List Char) : Option (List Char × List Char) :=
  let (mark, s) := match s with
    | '!' :: rest => (['!'], rest)
    | s => ([], s)
  let (first, s) := match s with
    | ']' :: rest => ([']'], rest)
    | s => ([], s)
  match s.dropWhile (· != ']') with
  | [] => none
  | _ :: after => some (mark ++ first ++ s.takeWhile (· != ']'), after)

/-- Cuts the text in brackets at the hyphens that stand for ranges. A piece has `least` characters
before the hyphen that ends it, so that a hyphen at the start, or next to the end of a range, stands
for itself. -/
def cutRanges (least : Nat) (piece : List Char) : List Char → List (List Char)
  | [] => [piece.reverse]
  | c :: rest =>
    if least = 0 ∧ c = '-' then piece.reverse :: cutRanges 2 [] rest
    else cutRanges (least - 1) (c :: piece) rest

/-- A hyphen at the very end stands for itself. -/
def keepLastHyphen : List (List Char) → List (List Char)
  | [] => []
  | [piece] => [piece]
  | [piece, []] => [piece ++ ['-']]
  | piece :: rest => piece :: keepLastHyphen rest

/-- Joins neighbouring pieces between which the range would be empty, from the last pair on, and
drops the two ends of such a range. -/
def joinEmptyRanges : List (List Char) → List (List Char)
  | [] => []
  | piece :: rest =>
    match joinEmptyRanges rest with
    | [] => [piece]
    | next :: others =>
      match piece.getLast?, next.head? with
      | some last, some first =>
        if first < last then (piece.dropLast ++ next.drop 1) :: others
        else piece :: next :: others
      | _, _ => piece :: next :: others

/-- The ranges between neighbouring pieces. -/
def rangesBetween : List (List Char) → List (Char × Char)
  | [] => []
  | [_] => []
  | piece :: next :: rest =>
    match piece.getLast?, next.head? with
    | some low, some high => (low, high) :: rangesBetween (next :: rest)
    | _, _ => rangesBetween (next :: rest)

/-- The item for a text in brackets. With nothing to choose from it matches no character, or any if
it is negated. -/
def bracketItem (body : List Char) : GlobItem :=
  let least := if body.head? = some '!' then 2 else 1
  let pieces :=
    if body.contains '-' then joinEmptyRanges (keepLastHyphen (cutRanges least [] body)) else [body]
  let negated := pieces.head?.bind (·.head?) = some '!'
  let pieces := match pieces with
    | ('!' :: piece) :: rest => piece :: rest
    | pieces => pieces
  .set ⟨negated, pieces.flatten, rangesBetween pieces⟩

/-- Reads a pattern; `fuel` bounds the number of items. A bracket that is not closed stands for
itself. -/
def parseItems : Nat → List Char → Glob
  | 0, _ => []
  | _, [] => []
  | fuel + 1, '*' :: rest => .star :: parseItems fuel rest
  | fuel + 1, '?' :: rest => .anyChar :: parseItems fuel rest
  | fuel + 1, '[' :: rest =>
    match bracketBody? rest with
    | some (body, after) => bracketItem body :: parseItems fuel after
    | none => .char '[' :: parseItems fuel rest
  | fuel + 1, c :: rest => .char c :: parseItems fuel rest

/-- The shell pattern that a text is. -/
def parse (pattern : List Char) : Glob := parseItems pattern.length pattern

/-- A text matches a pattern as a whole. -/
def matchesText (pattern text : String) : Bool :=
  Glob.outcome (parse pattern.toList) text.toList = .fit

/-! ## The outcome of matching -/

theorem someSuffix_iff {test : List Char → Bool} {text : List Char} :
    someSuffix test text = true ↔ ∃ rest, rest <:+ text ∧ test rest = true := by
  induction text with
  | nil => simp [someSuffix]
  | cons c rest ih =>
    simp only [someSuffix, Bool.or_eq_true, ih, List.suffix_cons_iff]
    constructor
    · rintro (h | ⟨r, hr, ht⟩)
      · exact ⟨_, .inl rfl, h⟩
      · exact ⟨r, .inr hr, ht⟩
    · rintro ⟨r, rfl | hr, ht⟩
      · exact .inl ht
      · exact .inr ⟨r, hr, ht⟩

/-- What an outcome tells about a pattern and a text. -/
def Outcome.Tells (test : List Char → Bool) (text : List Char) : Outcome → Prop
  | .fit => test text = true
  | .misfit => test text = false
  | .hopeless => ∀ rest, rest <:+ text → test rest = false

theorem seek_tells {test : List Char → Bool} {run : List Char → Outcome}
    (h : ∀ text, (run text).Tells test text) (text : List Char) :
    (seek run text).Tells (someSuffix test) text := by
  induction text with
  | nil =>
    have h := h []
    unfold seek
    cases hrun : run [] <;> simp_all [Outcome.Tells, someSuffix]
  | cons c rest ih =>
    have h := h (c :: rest)
    unfold seek
    cases hrun : run (c :: rest) with
    | fit => simp_all [Outcome.Tells, someSuffix]
    | hopeless =>
      simp only [hrun, Outcome.Tells] at h ⊢
      intro s hs
      rw [← Bool.not_eq_true, someSuffix_iff]
      rintro ⟨r, hr, ht⟩
      simp [h r (hr.trans hs)] at ht
    | misfit =>
      simp only [hrun, Outcome.Tells] at h
      cases hseek : seek run rest with
      | fit => simp_all [Outcome.Tells, someSuffix]
      | misfit => simp_all [Outcome.Tells, someSuffix]
      | hopeless =>
        simp only [hseek, Outcome.Tells] at ih ⊢
        intro s hs
        rcases List.suffix_cons_iff.mp hs with rfl | hs
        · simp [someSuffix, h, ih rest (List.suffix_refl _)]
        · exact ih s hs

/-- An item for one character passes the outcome of the items after it on. -/
theorem tells_cons {test step : List Char → Bool} {c : Char} {text : List Char} {found : Outcome}
    (h : found.Tells test text) (hnil : step [] = false)
    (hcons : ∀ d s, step (d :: s) = true → test s = true) (here : step (c :: text) = test text) :
    found.Tells step (c :: text) := by
  cases found with
  | fit => exact here.trans h
  | misfit => exact here.trans h
  | hopeless =>
    intro s hs
    cases s with
    | nil => exact hnil
    | cons d s =>
      rw [← Bool.not_eq_true]
      intro hstep
      have := h s (List.suffix_cons_iff.mp hs |>.elim (fun e => by simp_all)
        fun e => (List.suffix_cons d s).trans e)
      simp [hcons d s hstep] at this

theorem outcome_tells (items : Glob) (text : List Char) :
    (Glob.outcome items text).Tells (Glob.fits items) text := by
  induction items generalizing text with
  | nil => cases text <;> simp [Glob.outcome, Glob.fits, Outcome.Tells]
  | cons item items ih =>
    cases item with
    | star => exact seek_tells ih text
    | anyChar =>
      cases text with
      | nil => simp [Glob.outcome, Glob.fits, Outcome.Tells]
      | cons c text => exact tells_cons (ih text) rfl (fun _ _ h => h) rfl
    | set s =>
      cases text with
      | nil => simp [Glob.outcome, Glob.fits, Outcome.Tells]
      | cons c text =>
        unfold Glob.outcome
        split
        · rename_i hc
          refine tells_cons (ih text) rfl (fun d t h => ?_) (by simp [Glob.fits, hc])
          simp only [Glob.fits, Bool.and_eq_true] at h
          exact h.2
        · rename_i hc
          simp [Outcome.Tells, Glob.fits, hc]
    | char d =>
      cases text with
      | nil => simp [Glob.outcome, Glob.fits, Outcome.Tells]
      | cons c text =>
        unfold Glob.outcome
        split
        · rename_i hc
          refine tells_cons (ih text) rfl (fun d t h => ?_) (by simp [Glob.fits, hc])
          simp only [Glob.fits, Bool.and_eq_true] at h
          exact h.2
        · rename_i hc
          simp [Outcome.Tells, Glob.fits, hc]

theorem outcome_eq_fit_iff (items : Glob) (text : List Char) :
    Glob.outcome items text = .fit ↔ Glob.fits items text = true := by
  have h := outcome_tells items text
  cases hrun : Glob.outcome items text with
  | fit => simpa [hrun, Outcome.Tells] using h
  | misfit => simpa [hrun, Outcome.Tells] using h
  | hopeless =>
    simp only [hrun, Outcome.Tells] at h
    simp [h text (List.suffix_refl _)]

theorem matchesText_eq_fits (pattern text : String) :
    matchesText pattern text = Glob.fits (parse pattern.toList) text.toList := by
  rw [Bool.eq_iff_iff, matchesText, decide_eq_true_iff, outcome_eq_fit_iff]

theorem fits_literal (pattern text : List Char) :
    Glob.fits (pattern.map GlobItem.char) text = true ↔ text = pattern := by
  induction pattern generalizing text with
  | nil => cases text <;> simp [Glob.fits]
  | cons d rest ih =>
    cases text with
    | nil => simp [Glob.fits]
    | cons c text =>
      simp only [List.map_cons, Glob.fits, Bool.and_eq_true, beq_iff_eq, ih, List.cons.injEq]
      constructor <;> rintro ⟨h1, h2⟩ <;> exact ⟨h1.symm, h2⟩

end Glob

end Checkup
