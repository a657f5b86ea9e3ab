import Checkup.Text.Search

/-!
# Patterns in text

Patterns are built from classes of characters, runs of them, anchors, sequence and choice. The ways
in which a pattern matches at a place form a list in the order of preference: runs are long first,
and the first of two alternatives comes first. A search takes the first way at the leftmost place.

* `mem_matchesAt_iff`: the listed ways are exactly those of the relation `Matches`.
* `matchAt?_eq_head?`: the match that is searched for step by step is the first of the list.
* `consumes_of_matches`: a match takes a part from the front of the text.
-/

namespace Checkup

/-- A pattern. -/
inductive Pattern
  /-- Matches nothing at all, everywhere. -/
  | empty
  /-- One character of a class. -/
  | one (accepts : Char → Bool)
  /-- A run of characters of a class, as long as possible first. -/
  | run (accepts : Char → Bool)
  /-- The start of the text. -/
  | start
  /-- The end of the text, or the place before a newline that ends it. -/
  | stop
  /-- A place between a word character and another one, or the text's edge. -/
  | edge
  | seq (first second : Pattern)
  | either (first second : Pattern)
  /-- The text matched by a part is kept, behind what is kept inside of the part. -/
  | keep (part : Pattern)

namespace Pattern

/-- A place in a text: the character before it, and the text after it. -/
structure Cursor where
  before : Option Char
  rest : List Char
  deriving DecidableEq, Inhabited

/-- A way to match: the kept texts in order, and the place after the match. -/
structure Found where
  kept : List (List Char)
  after : Cursor
  deriving DecidableEq, Inhabited

/-- The place at the start of a text. -/
def Cursor.ofText (text : List Char) : Cursor := ⟨none, text⟩

/-- The place after the given characters. -/
def Cursor.past (c : Char) (rest : List Char) : Cursor := ⟨some c, rest⟩

/-- The text is at its end, or before a newline that ends it. -/
def atStop : List Char → Bool
  | [] => true
  | ['\n'] => true
  | _ => false

/-- A place at the edge of a word. -/
def atEdge (place : Cursor) : Bool :=
  place.before.any Text.isWord != place.rest.head?.any Text.isWord

/-- The places after runs of characters of a class, the empty run first. -/
def runsUp (accepts : Char → Bool) (before : Option Char) : List Char → List Cursor
  | [] => [⟨before, []⟩]
  | c :: rest =>
    ⟨before, c :: rest⟩ :: (if accepts c then runsUp accepts (some c) rest else [])

/-- The places after runs of characters of a class, the longest run first. -/
def runsFrom (accepts : Char → Bool) (place : Cursor) : List Cursor :=
  (runsUp accepts place.before place.rest).reverse

/-- The characters between two places, the second of which lies behind the first. -/
def between (first last : Cursor) : List Char :=
  first.rest.take (first.rest.length - last.rest.length)

/-- The ways in which a pattern matches at a place, in the order of preference. -/
def matchesAt : Pattern → Cursor → List Found
  | empty, place => [⟨[], place⟩]
  | one accepts, place =>
    match place.rest with
    | [] => []
    | c :: rest => if accepts c then [⟨[], .past c rest⟩] else []
  | run accepts, place => (runsFrom accepts place).map fun after => ⟨[], after⟩
  | start, place => if place.before.isNone then [⟨[], place⟩] else []
  | stop, place => if atStop place.rest then [⟨[], place⟩] else []
  | edge, place => if atEdge place then [⟨[], place⟩] else []
  | seq first second, place =>
    (matchesAt first place).flatMap fun a =>
      (matchesAt second a.after).map fun b => ⟨a.kept ++ b.kept, b.after⟩
  | either first second, place => matchesAt first place ++ matchesAt second place
  | keep part, place =>
    (matchesAt part place).map fun a => ⟨a.kept ++ [between place a.after], a.after⟩

/-- The kept texts of one match and of the next one, and the place after both. -/
def Found.andThen (a b : Found) : Found := ⟨a.kept ++ b.kept, b.after⟩

/-- The preferred way to match at a place and to go on after it. -/
def matchThen : Pattern → Cursor → (Cursor → Option Found) → Option Found
  | empty, place, next => next place
  | one accepts, place, next =>
    match place.rest with
    | [] => none
    | c :: rest => if accepts c then next (.past c rest) else none
  | run accepts, place, next => (runsFrom accepts place).findSome? next
  | start, place, next => if place.before.isNone then next place else none
  | stop, place, next => if atStop place.rest then next place else none
  | edge, place, next => if atEdge place then next place else none
  | seq first second, place, next =>
    matchThen first place fun after => matchThen second after next
  | either first second, place, next =>
    match matchThen first place next with
    | some found => some found
    | none => matchThen second place next
  | keep part, place, next =>
    matchThen part place fun after =>
      (next after).map fun found => Found.andThen ⟨[between place after], after⟩ found

/-- The preferred way to match at a place. -/
def matchAt? (p : Pattern) (place : Cursor) : Option Found :=
  p.matchThen place fun after => some ⟨[], after⟩

/-- The leftmost match from a place on. -/
def searchFrom? (p : Pattern) (before : Option Char) : List Char → Option Found
  | [] => p.matchAt? ⟨before, []⟩
  | c :: rest =>
    match p.matchAt? ⟨before, c :: rest⟩ with
    | some found => some found
    | none => searchFrom? p (some c) rest

/-- The leftmost match in a text. -/
def search? (p : Pattern) (text : List Char) : Option Found := p.searchFrom? none text

/-- The pattern matches somewhere in a text. -/
def foundIn (p : Pattern) (text : List Char) : Bool := (p.search? text).isSome

/-- The first kept text of the leftmost match. -/
def firstKept? (p : Pattern) (text : List Char) : Option (List Char) :=
  (p.search? text).bind fun found => found.kept.head?

/-- The matches that follow one another from a place on without overlap; `fuel` bounds their number.
After a match of nothing the search goes on behind the next character. -/
def allFrom (p : Pattern) : Nat → Option Char → List Char → List Found
  | 0, _, _ => []
  | fuel + 1, before, text =>
    match p.searchFrom? before text with
    | none => []
    | some found =>
      let next :=
        if found.after.rest.length < text.length then some found.after
        else
          match text with
          | [] => none
          | c :: rest => some (.past c rest)
      match next with
      | none => [found]
      | some place => found :: allFrom p fuel place.before place.rest

/-- The matches in a text from left to right, none overlapping another. -/
def all (p : Pattern) (text : List Char) : List Found := p.allFrom (text.length + 1) none text

/-! ## Building patterns -/

/-- One given character. -/
def char (c : Char) : Pattern := one (· == c)

/-- A given text. -/
def literal : List Char → Pattern
  | [] => empty
  | [c] => char c
  | c :: rest => seq (char c) (literal rest)

/-- A given text. -/
def text (s : String) : Pattern := literal s.toList

/-- Patterns one after another. -/
def sequence : List Pattern → Pattern
  | [] => empty
  | [p] => p
  | p :: rest => seq p (sequence rest)

/-- The first of some patterns that matches. -/
def anyOf : List Pattern → Pattern
  | [] => one fun _ => false
  | [p] => p
  | p :: rest => either p (anyOf rest)

/-- One of some texts. -/
def anyText (texts : List String) : Pattern := anyOf (texts.map text)

/-- The pattern, or nothing. -/
def optional (p : Pattern) : Pattern := either p empty

/-- At least one character of a class. -/
def run1 (accepts : Char → Bool) : Pattern := seq (one accepts) (run accepts)

/-- Blanks, possibly none. -/
def blanks : Pattern := run Text.isBlank

/-- At least one blank. -/
def blanks1 : Pattern := run1 Text.isBlank

/-- A name: at least one word character. -/
def word : Pattern := run1 Text.isWord

/-- The start of a path or of one of its names. -/
def nameStart : Pattern := either start (char '/')

/-! ## The matching relation -/

/-- A pattern matches from one place to another and keeps some texts. -/
inductive Matches : Pattern → Cursor → Found → Prop
  | empty (place : Cursor) : Matches empty place ⟨[], place⟩
  | one {accepts : Char → Bool} {c : Char} (before : Option Char) (rest : List Char)
      (h : accepts c = true) : Matches (one accepts) ⟨before, c :: rest⟩ ⟨[], .past c rest⟩
  | runStop (accepts : Char → Bool) (place : Cursor) : Matches (run accepts) place ⟨[], place⟩
  | runStep {accepts : Char → Bool} {c : Char} {before : Option Char} {rest : List Char}
      {after : Cursor} (h : accepts c = true)
      (tail : Matches (run accepts) (.past c rest) ⟨[], after⟩) :
      Matches (run accepts) ⟨before, c :: rest⟩ ⟨[], after⟩
  | start (rest : List Char) : Matches start ⟨none, rest⟩ ⟨[], ⟨none, rest⟩⟩
  | stop {place : Cursor} (h : atStop place.rest = true) : Matches stop place ⟨[], place⟩
  | edge {place : Cursor} (h : atEdge place = true) : Matches edge place ⟨[], place⟩
  | seq {first second : Pattern} {place : Cursor} {a b : Found} (ha : Matches first place a)
      (hb : Matches second a.after b) : Matches (seq first second) place ⟨a.kept ++ b.kept, b.after⟩
  | eitherLeft {first second : Pattern} {place : Cursor} {a : Found} (h : Matches first place a) :
      Matches (either first second) place a
  | eitherRight {first second : Pattern} {place : Cursor} {a : Found} (h : Matches second place a) :
      Matches (either first second) place a
  | keep {part : Pattern} {place : Cursor} {a : Found} (h : Matches part place a) :
      Matches (keep part) place ⟨a.kept ++ [between place a.after], a.after⟩

/-! ## The preferred way -/

theorem findSome?_ite {α β : Type} (b : Bool) (a : α) (f : α → Option β) :
    (if b = true then [a] else []).findSome? f = if b = true then f a else none := by
  cases b <;> simp

theorem findSome?_flatMap {α β γ : Type} (l : List α) (g : α → List β) (f : β → Option γ) :
    (l.flatMap g).findSome? f = l.findSome? fun a => (g a).findSome? f := by
  induction l with
  | nil => rfl
  | cons a rest ih =>
    simp only [List.flatMap_cons, List.findSome?_append, ih, List.findSome?_cons]
    cases (g a).findSome? f <;> rfl

theorem map_findSome?_eq {α β γ : Type} (l : List α) (f : α → Option β) (g : β → γ) :
    (l.findSome? f).map g = l.findSome? fun a => (f a).map g := by
  induction l with
  | nil => rfl
  | cons a rest ih =>
    simp only [List.findSome?_cons]
    cases f a <;> simp [ih]

theorem map_andThen_nil (found : Option Found) (after : Cursor) :
    found.map (Found.andThen ⟨[], after⟩) = found := by
  cases found <;> simp [Found.andThen]

theorem andThen_eq (a : Found) : a.andThen = fun b => ⟨a.kept ++ b.kept, b.after⟩ := rfl

theorem matchThen_eq_findSome? (p : Pattern) (place : Cursor) (next : Cursor → Option Found) :
    p.matchThen place next =
      (p.matchesAt place).findSome? fun a => (next a.after).map a.andThen := by
  induction p generalizing place next with
  | empty => simp [matchThen, matchesAt, map_andThen_nil]
  | one accepts =>
    obtain ⟨before, text⟩ := place
    cases text with
    | nil => rfl
    | cons c rest => simp only [matchThen, matchesAt, findSome?_ite, map_andThen_nil]
  | run accepts =>
    simp only [matchThen, matchesAt, List.findSome?_map, Function.comp_def, map_andThen_nil]
  | start => simp only [matchThen, matchesAt, findSome?_ite, map_andThen_nil]
  | stop => simp only [matchThen, matchesAt, findSome?_ite, map_andThen_nil]
  | edge => simp only [matchThen, matchesAt, findSome?_ite, map_andThen_nil]
  | seq first second ih1 ih2 =>
    simp only [matchThen, matchesAt, ih1, ih2, findSome?_flatMap, List.findSome?_map,
      map_findSome?_eq, Option.map_map, Function.comp_def, andThen_eq, List.append_assoc]
  | either first second ih1 ih2 =>
    simp only [matchThen, matchesAt, ih1, ih2, List.findSome?_append]
    cases (first.matchesAt place).findSome? fun a => (next a.after).map a.andThen <;> rfl
  | keep part ih =>
    simp only [matchThen, matchesAt, ih, List.findSome?_map, Option.map_map, Function.comp_def,
      andThen_eq, List.append_assoc]

theorem matchAt?_eq_head? (p : Pattern) (place : Cursor) :
    p.matchAt? place = (p.matchesAt place).head? := by
  rw [matchAt?, matchThen_eq_findSome?]
  cases p.matchesAt place <;> simp [Found.andThen]

/-! ## All ways are matches -/

theorem mem_runsUp {accepts : Char → Bool} {before : Option Char} {text : List Char}
    {after : Cursor} (h : after ∈ runsUp accepts before text) :
    Matches (run accepts) ⟨before, text⟩ ⟨[], after⟩ := by
  induction text generalizing before with
  | nil =>
    simp only [runsUp, List.mem_singleton] at h
    exact h ▸ .runStop _ _
  | cons c rest ih =>
    simp only [runsUp, List.mem_cons] at h
    rcases h with h | h
    · exact h ▸ .runStop _ _
    · split at h
      · rename_i hc
        exact .runStep hc (ih h)
      · simp at h

theorem self_mem_runsUp (accepts : Char → Bool) (before : Option Char) (text : List Char) :
    (⟨before, text⟩ : Cursor) ∈ runsUp accepts before text := by
  cases text <;> simp [runsUp]

theorem matches_of_mem {p : Pattern} {place : Cursor} {found : Found}
    (h : found ∈ p.matchesAt place) : Matches p place found := by
  induction p generalizing place found with
  | empty =>
    simp only [matchesAt, List.mem_singleton] at h
    exact h ▸ .empty _
  | one accepts =>
    obtain ⟨before, text⟩ := place
    cases text with
    | nil => simp [matchesAt] at h
    | cons c rest =>
      simp only [matchesAt] at h
      split at h
      · rename_i hc
        exact (List.mem_singleton.mp h) ▸ .one _ _ hc
      · simp at h
  | run accepts =>
    simp only [matchesAt, runsFrom, List.mem_map, List.mem_reverse] at h
    obtain ⟨after, hafter, rfl⟩ := h
    exact mem_runsUp hafter
  | start =>
    obtain ⟨before, text⟩ := place
    simp only [matchesAt] at h
    split at h
    · rename_i hb
      simp only [Option.isNone_iff_eq_none] at hb
      subst hb
      exact (List.mem_singleton.mp h) ▸ .start _
    · simp at h
  | stop =>
    simp only [matchesAt] at h
    split at h
    · rename_i hs
      exact (List.mem_singleton.mp h) ▸ .stop hs
    · simp at h
  | edge =>
    simp only [matchesAt] at h
    split at h
    · rename_i hs
      exact (List.mem_singleton.mp h) ▸ .edge hs
    · simp at h
  | seq first second ih1 ih2 =>
    simp only [matchesAt, List.mem_flatMap, List.mem_map] at h
    obtain ⟨a, ha, b, hb, rfl⟩ := h
    exact .seq (ih1 ha) (ih2 hb)
  | either first second ih1 ih2 =>
    simp only [matchesAt, List.mem_append] at h
    rcases h with h | h
    · exact .eitherLeft (ih1 h)
    · exact .eitherRight (ih2 h)
  | keep part ih =>
    simp only [matchesAt, List.mem_map] at h
    obtain ⟨a, ha, rfl⟩ := h
    exact .keep (ih ha)

theorem matches_of_matchAt? {p : Pattern} {place : Cursor} {found : Found}
    (h : p.matchAt? place = some found) : Matches p place found := by
  rw [matchAt?_eq_head?] at h
  exact matches_of_mem (List.mem_of_mem_head? h)

theorem mem_of_matches {p : Pattern} {place : Cursor} {found : Found} (h : Matches p place found) :
    found ∈ p.matchesAt place := by
  induction h with
  | empty place => simp [matchesAt]
  | one before rest hc => simp [matchesAt, hc]
  | runStop accepts place =>
    simp only [matchesAt, runsFrom, List.mem_map, List.mem_reverse]
    exact ⟨place, self_mem_runsUp _ _ _, rfl⟩
  | runStep hc tail ih =>
    simp only [matchesAt, runsFrom, List.mem_map, List.mem_reverse, Found.mk.injEq, true_and,
      exists_eq_right] at ih ⊢
    simp only [runsUp, hc, if_true, List.mem_cons]
    exact .inr ih
  | start rest => simp [matchesAt]
  | stop h => simp [matchesAt, h]
  | edge h => simp [matchesAt, h]
  | seq ha hb iha ihb =>
    simp only [matchesAt, List.mem_flatMap, List.mem_map]
    exact ⟨_, iha, _, ihb, rfl⟩
  | eitherLeft h ih => simp [matchesAt, ih]
  | eitherRight h ih => simp [matchesAt, ih]
  | keep h ih =>
    simp only [matchesAt, List.mem_map]
    exact ⟨_, ih, rfl⟩

theorem mem_matchesAt_iff {p : Pattern} {place : Cursor} {found : Found} :
    found ∈ p.matchesAt place ↔ Matches p place found := ⟨matches_of_mem, mem_of_matches⟩

theorem consumes_of_matches {p : Pattern} {place : Cursor} {found : Found}
    (h : Matches p place found) : found.after.rest <:+ place.rest := by
  induction h with
  | empty place => exact List.suffix_refl _
  | one before rest hc => exact List.suffix_cons _ _
  | runStop accepts place => exact List.suffix_refl _
  | runStep hc tail ih => exact ih.trans (List.suffix_cons _ _)
  | start rest => exact List.suffix_refl _
  | stop h => exact List.suffix_refl _
  | edge h => exact List.suffix_refl _
  | seq ha hb iha ihb => exact ihb.trans iha
  | eitherLeft h ih => exact ih
  | eitherRight h ih => exact ih
  | keep h ih => exact ih

end Pattern

end Checkup
