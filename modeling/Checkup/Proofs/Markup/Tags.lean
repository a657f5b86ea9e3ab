import Mathlib.Data.List.Induction
import Checkup.Pattern.Code

/-!
# Attributes of a tag

An opening tag is read from behind its name, character by character, as far as its line goes. White
space and comments stand between attributes; a value stands between quotation marks, or is an expression
in braces or an element. Where an expression or an element ends is left open here: `whole` tells which
texts are one as a whole, and what is said of tags holds whatever it tells.

A text from which a link to a path can be read, somewhere in the tag, is its own link only if an
attribute begins there. Everything else that it may be is a `Misread`.

* `partAfter`: the part of the tag that a reader has come to.
* `exists_name_of_partAfter`: where a name begins.
* `Attribute`: an attribute of a tag with its value.
* `misread_iff`: a tag that is misread.
* `exists_pathAt_iff`: a tag in which a link to a path can be read has one of its own, or it is misread.
-/

namespace Checkup.Markup

open Pattern (isQuote)

/-! ## Names of attributes -/

/-- White space in a tag: blanks, and the mark of byte order. -/
def isSpace (c : Char) : Bool := Text.isBlank c || c == Char.ofNat 0xFEFF

/-- A character of the name of an attribute. -/
def isNameChar (c : Char) : Bool :=
  !isSpace c && (decide (0x80 ≤ c.toNat) || c.isAlphanum || "_$-:".toList.contains c)

/-- A character with which the name of an attribute begins. -/
def isNameStart (c : Char) : Bool := isNameChar c && c != '-' && c != ':'

/-- The name of an attribute. -/
def isName : List Char → Bool
  | [] => false
  | c :: rest => isNameStart c && rest.all isNameChar

/-- The name of the attribute for links, in either case of letters. -/
def isHref (name : List Char) : Bool := name.map Char.toLower == "href".toList

theorem isNameChar_of_isNameStart {c : Char} (h : isNameStart c = true) : isNameChar c = true := by
  simp only [isNameStart, Bool.and_eq_true] at h
  exact h.1.1

theorem isNameChar_of_isName {name : List Char} (h : isName name = true) :
    ∀ c ∈ name, isNameChar c = true := by
  cases name with
  | nil => exact List.forall_mem_nil _
  | cons c rest =>
    simp only [isName, Bool.and_eq_true, List.all_eq_true] at h
    exact List.forall_mem_cons.mpr ⟨isNameChar_of_isNameStart h.1, h.2⟩

theorem isName_append {name more : List Char} (hname : isName name = true)
    (hmore : ∀ c ∈ more, isNameChar c = true) : isName (name ++ more) = true := by
  cases name with
  | nil => cases hname
  | cons c rest =>
    simp only [isName, List.cons_append, List.all_append, Bool.and_eq_true] at hname ⊢
    exact ⟨hname.1, hname.2, List.all_eq_true.mpr hmore⟩

theorem isName_of_append {name more : List Char} (h : isName (name ++ more) = true) (hne : name ≠ []) :
    isName name = true := by
  cases name with
  | nil => exact absurd rfl hne
  | cons c rest =>
    simp only [isName, List.cons_append, List.all_append, Bool.and_eq_true] at h ⊢
    exact ⟨h.1, h.2.1⟩

theorem toLower_of_not_isUpper {c : Char} (h : c.isUpper = false) : c.toLower = c := by
  have hrange : ¬ (c.val ≥ 'A'.val ∧ c.val ≤ 'Z'.val) := of_decide_eq_false h
  unfold Char.toLower
  rw [dif_neg hrange]

theorem isNameStart_of_isUpper {c : Char} (h : c.isUpper = true) : isNameStart c = true := by
  have hall : ∀ n < 0x80, (Char.ofNat n).isUpper = true → isNameStart (Char.ofNat n) = true := by decide
  have hlast : c.val ≤ 'Z'.val := (of_decide_eq_true h).2
  have hless : c.toNat < 0x80 := Nat.lt_of_le_of_lt (UInt32.le_iff_toNat_le.mp hlast) (by decide)
  have hc := hall c.toNat hless
  rw [Char.ofNat_toNat] at hc
  exact hc h

theorem isNameStart_of_isHref {name : List Char} (h : isHref name = true) :
    ∀ c ∈ name, isNameStart c = true := by
  intro c hc
  cases hupper : c.isUpper with
  | true => exact isNameStart_of_isUpper hupper
  | false =>
    have hall : "href".toList.all isNameStart = true := by decide
    have hmem : c.toLower ∈ name.map Char.toLower := List.mem_map_of_mem hc
    rw [beq_iff_eq.mp h, toLower_of_not_isUpper hupper] at hmem
    exact List.all_eq_true.mp hall c hmem

theorem isName_of_isHref {name : List Char} (h : isHref name = true) : isName name = true := by
  have hstart := isNameStart_of_isHref h
  cases name with
  | nil => cases h
  | cons c rest =>
    obtain ⟨hc, hrest⟩ := List.forall_mem_cons.mp hstart
    have hfirst : isName [c] = true := by simpa [isName] using hc
    exact isName_append hfirst fun d hd => isNameChar_of_isNameStart (hrest d hd)

/-! ## Reading a tag -/

/-- The part of a tag that a reader has come to. -/
inductive Part
  /-- Between attributes; with `awaits`, behind an equals sign whose value is still to come. -/
  | gap (awaits : Bool)
  /-- In the name of an attribute. -/
  | name
  /-- Behind a slash, with which a comment may begin. -/
  | slash (awaits : Bool)
  /-- In a comment between slashes and stars; with `star`, behind one of its stars. -/
  | comment (awaits star : Bool)
  /-- In a comment that goes on to the end of the line. -/
  | remark
  /-- In a value between quotation marks. -/
  | quoted (mark : Char)
  /-- In an expression or an element that has been read so far. -/
  | code (read : List Char)
  /-- Behind the tag, or in a text that is no tag. -/
  | ended
  deriving DecidableEq, Repr

namespace Part

/-- What begins with a character between attributes. -/
def ofGap (c : Char) : Part :=
  if isSpace c then gap false
  else if c == '=' then gap true
  else if c == '/' then slash false
  else if c == '\x7b' then code [c]
  else if isNameStart c then name
  else ended

/-- What begins with a character where a value is awaited. -/
def ofValue (c : Char) : Part :=
  if isSpace c then gap true
  else if c == '/' then slash true
  else if isQuote c then quoted c
  else if c == '\x7b' || c == '<' then code [c]
  else ended

/-- A value or a comment, in which nothing is an attribute of the tag. -/
def isInside : Part → Bool
  | comment .. | remark | quoted _ | code _ => true
  | _ => false

/-- A part in which no name can begin or go on. -/
def isOutside : Part → Bool
  | gap awaits => awaits
  | slash _ | ended => true
  | _ => false

end Part

section Reading

variable (whole : List Char → Bool)

/-- The part that a reader comes to with the next character. -/
def step : Part → Char → Part
  | .gap awaits, c => if awaits then .ofValue c else .ofGap c
  | .name, c => if isNameChar c then .name else .ofGap c
  | .slash awaits, c => if c == '*' then .comment awaits false else if c == '/' then .remark else .ended
  | .comment awaits star, c => if star && c == '/' then .gap awaits else .comment awaits (c == '*')
  | .remark, _ => .remark
  | .quoted mark, c => if c == mark then .gap false else .quoted mark
  | .code read, c => if whole (read ++ [c]) then .gap false else .code (read ++ [c])
  | .ended, _ => .ended

/-- The part that a reader of a tag comes to behind a text from its front. -/
def partAfter (front : List Char) : Part := front.foldl (step whole) (.gap false)

/-- An attribute stands in a tag behind `front`, with a value that begins with a quotation mark. The
value goes on to the next such mark, or to the end of the text. -/
structure Attribute (tag front name value : List Char) : Prop where
  stands : ∃ mark rest, tag = front ++ (name ++ '=' :: mark :: rest) ∧ isQuote mark = true ∧
    value = rest.takeWhile (· != mark)
  begins : partAfter whole front = .gap false
  named : isName name = true

end Reading

variable {whole : List Char → Bool} {part : Part} {front tag rest : List Char}

theorem partAfter_concat (front : List Char) (c : Char) :
    partAfter whole (front ++ [c]) = step whole (partAfter whole front) c := by
  unfold partAfter
  rw [List.foldl_append]
  rfl

theorem ofGap_eq_name_iff {c : Char} : Part.ofGap c = .name ↔ isNameStart c = true := by
  constructor
  · intro h
    by_contra hc
    rw [Part.ofGap, if_neg hc] at h
    repeat' split at h
    all_goals cases h
  · intro h
    have hspace : isSpace c = false := by
      have hchar := isNameChar_of_isNameStart h
      simp only [isNameChar, Bool.and_eq_true, Bool.not_eq_true'] at hchar
      exact hchar.1
    have hmark : ∀ d ∈ ['=', '/', '\x7b'], (c == d) = false := by
      have hall : ['=', '/', '\x7b'].all (!isNameStart ·) = true := by decide
      intro d hd
      rw [beq_eq_false_iff_ne]
      rintro rfl
      simpa [h] using List.all_eq_true.mp hall c hd
    simp [Part.ofGap, hspace, hmark, h]

theorem ofValue_ne_name (c : Char) : Part.ofValue c ≠ .name := by
  unfold Part.ofValue
  repeat' split
  all_goals exact Part.noConfusion

/-- A name begins between attributes, and goes on with its characters. -/
theorem name_of_step {c : Char} (h : step whole part c = .name) :
    (part = .gap false ∧ isNameStart c = true) ∨ (part = .name ∧ isNameChar c = true) := by
  cases part with
  | gap awaits =>
    cases awaits with
    | false => exact .inl ⟨rfl, ofGap_eq_name_iff.mp h⟩
    | true => exact absurd h (ofValue_ne_name c)
  | name =>
    refine .inr ⟨rfl, ?_⟩
    rw [step] at h
    split at h
    · assumption
    · exact isNameChar_of_isNameStart (ofGap_eq_name_iff.mp h)
  | slash awaits =>
    rw [step] at h
    repeat' split at h
    all_goals cases h
  | comment awaits star =>
    rw [step] at h
    split at h <;> cases h
  | remark => cases h
  | quoted mark =>
    rw [step] at h
    split at h <;> cases h
  | code read =>
    rw [step] at h
    split at h <;> cases h
  | ended => cases h

/-- A reader in a name has read its beginning, and was between attributes before it. -/
theorem exists_name_of_partAfter (h : partAfter whole front = .name) : ∃ before lead,
    front = before ++ lead ∧ partAfter whole before = .gap false ∧ isName lead = true := by
  induction front using List.reverseRecOn with
  | nil => cases h
  | append_singleton front c ih =>
    rw [partAfter_concat] at h
    rcases name_of_step h with ⟨hgap, hc⟩ | ⟨hname, hc⟩
    · exact ⟨front, [c], rfl, hgap, by simpa [isName] using hc⟩
    · obtain ⟨before, lead, rfl, hgap, hlead⟩ := ih hname
      exact ⟨before, lead ++ [c], List.append_assoc .., hgap,
        isName_append hlead (List.forall_mem_singleton.mpr hc)⟩

/-- A reader of a name is still in it at its end. -/
theorem partAfter_name (hfront : partAfter whole front = .gap false) {name : List Char}
    (hname : isName name = true) : partAfter whole (front ++ name) = .name := by
  induction name using List.reverseRecOn with
  | nil => cases hname
  | append_singleton name c ih =>
    rw [← List.append_assoc, partAfter_concat]
    by_cases hne : name = []
    · subst hne
      have hstart : isNameStart c = true := by simpa [isName] using hname
      rw [List.append_nil, hfront]
      exact ofGap_eq_name_iff.mpr hstart
    · rw [ih (isName_of_append hname hne), step, if_pos]
      exact isNameChar_of_isName hname c (by simp)

/-! ## Links to paths -/

/-- The value is a path. -/
def isPath (value : List Char) : Bool := "/".toList.isPrefixOf value

/-- What begins with two slashes names a host. -/
def namesHost (value : List Char) : Bool := "//".toList.isPrefixOf value

/-- A path in the site begins with one slash, and not with two. -/
def isInternal (value : List Char) : Bool := isPath value && !namesHost value

/-- In a tag there is a text behind `front` from which a link to a path can be read: a name that ends in
the name of links, an equals sign, a quotation mark and a slash, in front of any `>`. -/
structure PathAt (tag front rest : List Char) : Prop where
  stands : ∃ name mark, tag = front ++ (name ++ '=' :: mark :: '/' :: rest) ∧ isHref name = true ∧
    isQuote mark = true
  within : '>' ∉ front

/-- A tag has a link of its own to a path in the site. -/
def HasInternalLink (whole : List Char → Bool) (tag : List Char) : Prop :=
  ∃ front name value, Attribute whole tag front name value ∧ isHref name = true ∧ isInternal value = true

/-- Such a link with no `>` before it in the tag. -/
def HasOpenLink (whole : List Char → Bool) (tag : List Char) : Prop :=
  ∃ front name value, Attribute whole tag front name value ∧ isHref name = true ∧
    isInternal value = true ∧ '>' ∉ front

/-- What a link to a path can be read from, although it is no link of the tag to a path in the site. -/
inductive Misread (whole : List Char → Bool) (tag : List Char) : Prop
  /-- The tag's own link names a host. -/
  | host {front name value : List Char} (h : Attribute whole tag front name value)
    (hname : isHref name = true) (hvalue : namesHost value = true) (hfront : '>' ∉ front)
  /-- Another attribute has a name that only ends in that of links. -/
  | longer {front lead name value : List Char} (h : Attribute whole tag front (lead ++ name) value)
    (hlead : lead ≠ []) (hname : isHref name = true) (hvalue : isPath value = true)
    (hfront : '>' ∉ front)
  /-- The text stands in the value of an attribute, or in a comment. -/
  | inside {front rest : List Char} (h : PathAt tag front rest)
    (hpart : (partAfter whole front).isInside = true)
  /-- The text stands where no attribute can begin, since what was read before it is not a tag. -/
  | outside {front rest : List Char} (h : PathAt tag front rest)
    (hpart : (partAfter whole front).isOutside = true)

/-- A path is one in the site, or it names a host. -/
theorem isPath_iff {value : List Char} :
    isPath value = true ↔ isInternal value = true ∨ namesHost value = true := by
  have hhost : namesHost value = true → isPath value = true := by
    simp only [namesHost, isPath, List.isPrefixOf_iff_prefix]
    exact (show "/".toList <+: "//".toList from ⟨['/'], rfl⟩).trans
  rw [isInternal, Bool.and_eq_true]
  cases hvalue : namesHost value with
  | true => simpa using hhost hvalue
  | false => simp

section Value

variable {mark : Char} (hmark : isQuote mark = true)

include hmark

theorem takeWhile_slash (rest : List Char) :
    ('/' :: rest).takeWhile (· != mark) = '/' :: rest.takeWhile (· != mark) := by
  refine List.takeWhile_cons_of_pos ?_
  rw [bne_iff_ne]
  rintro rfl
  exact absurd hmark (by decide)

/-- The value of a link to a path is a path. -/
theorem isPath_takeWhile_iff {behind : List Char} :
    isPath (behind.takeWhile (· != mark)) = true ↔ ∃ rest, behind = '/' :: rest := by
  constructor
  · intro h
    cases behind with
    | nil => cases h
    | cons c rest =>
      rw [List.takeWhile_cons] at h
      split at h
      · obtain rfl : '/' = c := by simpa [isPath] using h
        exact ⟨rest, rfl⟩
      · cases h
  · rintro ⟨rest, rfl⟩
    rw [takeWhile_slash hmark]
    rfl

theorem namesHost_takeWhile_iff {rest : List Char} :
    namesHost (('/' :: rest).takeWhile (· != mark)) = true ↔ rest.head? = some '/' := by
  have hpath : isPath (rest.takeWhile (· != mark)) = true ↔ ∃ more, rest = '/' :: more :=
    isPath_takeWhile_iff hmark
  have hhost : namesHost ('/' :: rest.takeWhile (· != mark)) = isPath (rest.takeWhile (· != mark)) := by
    simp [namesHost, isPath]
  rw [takeWhile_slash hmark, hhost, hpath]
  cases rest <;> simp

end Value

/-- What can be read from an attribute whose name is that of links or ends in it. -/
theorem Attribute.exists_pathAt {lead name value : List Char}
    (h : Attribute whole tag front (lead ++ name) value) (hname : isHref name = true)
    (hvalue : isPath value = true) (hfront : '>' ∉ front) :
    ∃ rest, PathAt tag (front ++ lead) rest ∧ (namesHost value = true ↔ rest.head? = some '/') := by
  obtain ⟨mark, behind, htag, hmark, rfl⟩ := h.stands
  obtain ⟨rest, rfl⟩ := (isPath_takeWhile_iff hmark).mp hvalue
  have hlead : '>' ∉ lead := by
    intro hmem
    have hchar := isNameChar_of_isName h.named '>' (List.mem_append_left _ hmem)
    exact absurd hchar (by decide)
  refine ⟨rest, ⟨⟨name, mark, ?_, hname, hmark⟩, ?_⟩, namesHost_takeWhile_iff hmark⟩
  · rw [htag]
    simp only [List.append_assoc]
  · rw [List.mem_append, not_or]
    exact ⟨hfront, hlead⟩

theorem Attribute.exists_pathAt_of_isHref {name value : List Char}
    (h : Attribute whole tag front name value) (hname : isHref name = true) (hvalue : isPath value = true)
    (hfront : '>' ∉ front) :
    ∃ rest, PathAt tag front rest ∧ (namesHost value = true ↔ rest.head? = some '/') := by
  have hwhole : Attribute whole tag front ([] ++ name) value := h
  obtain ⟨rest, hpath, hhost⟩ := hwhole.exists_pathAt hname hvalue hfront
  rw [List.append_nil] at hpath
  exact ⟨rest, hpath, hhost⟩

/-- A link that can be read where an attribute begins is one of the tag. -/
theorem PathAt.exists_attribute (h : PathAt tag front rest) (hfront : partAfter whole front = .gap false) :
    ∃ name value, Attribute whole tag front name value ∧ isHref name = true ∧ isPath value = true ∧
      (namesHost value = true ↔ rest.head? = some '/') := by
  obtain ⟨name, mark, htag, hname, hmark⟩ := h.stands
  exact ⟨name, _, ⟨⟨mark, '/' :: rest, htag, hmark, rfl⟩, hfront, isName_of_isHref hname⟩, hname,
    (isPath_takeWhile_iff hmark).mpr ⟨rest, rfl⟩, namesHost_takeWhile_iff hmark⟩

/-- A link that can be read in a name is that of an attribute with a longer name. -/
theorem PathAt.exists_longer (h : PathAt tag front rest) (hfront : partAfter whole front = .name) :
    ∃ before lead name value, front = before ++ lead ∧ Attribute whole tag before (lead ++ name) value ∧
      lead ≠ [] ∧ isHref name = true ∧ isPath value = true := by
  obtain ⟨before, lead, rfl, hgap, hlead⟩ := exists_name_of_partAfter hfront
  obtain ⟨name, mark, htag, hname, hmark⟩ := h.stands
  have hchars : ∀ c ∈ name, isNameChar c = true :=
    fun c hc => isNameChar_of_isNameStart (isNameStart_of_isHref hname c hc)
  refine ⟨before, lead, name, _, rfl, ⟨⟨mark, '/' :: rest, ?_, hmark, rfl⟩, hgap,
    isName_append hlead hchars⟩, ?_, hname, (isPath_takeWhile_iff hmark).mpr ⟨rest, rfl⟩⟩
  · rw [htag]
    simp only [List.append_assoc]
  · rintro rfl
    cases hlead

theorem hasOpenLink_iff : HasOpenLink whole tag ↔ ∃ front rest, PathAt tag front rest ∧
    partAfter whole front = .gap false ∧ rest.head? ≠ some '/' := by
  constructor
  · rintro ⟨front, name, value, h, hname, hvalue, hfront⟩
    obtain ⟨rest, hpath, hhost⟩ := h.exists_pathAt_of_isHref hname (isPath_iff.mpr (.inl hvalue)) hfront
    simp only [isInternal, Bool.and_eq_true, Bool.not_eq_true'] at hvalue
    exact ⟨front, rest, hpath, h.begins, fun hhead => by simp [hhost.mpr hhead] at hvalue⟩
  · rintro ⟨front, rest, hpath, hbegins, hhead⟩
    obtain ⟨name, value, h, hname, hvalue, hhost⟩ := hpath.exists_attribute hbegins
    have hinternal := (isPath_iff.mp hvalue).resolve_right fun h => hhead (hhost.mp h)
    exact ⟨front, name, value, h, hname, hinternal, hpath.within⟩

/-- A tag is misread if a link to a path can be read where no attribute begins, or names a host. -/
theorem misread_iff : Misread whole tag ↔ ∃ front rest, PathAt tag front rest ∧
    (partAfter whole front = .gap false → rest.head? = some '/') := by
  constructor
  · intro h
    cases h with
    | host h hname hvalue hfront =>
      obtain ⟨rest, hpath, hhost⟩ :=
        h.exists_pathAt_of_isHref hname (isPath_iff.mpr (.inr hvalue)) hfront
      exact ⟨_, rest, hpath, fun _ => hhost.mp hvalue⟩
    | longer h hlead hname hvalue hfront =>
      obtain ⟨rest, hpath, -⟩ := h.exists_pathAt hname hvalue hfront
      have hpart := partAfter_name h.begins (isName_of_append h.named hlead)
      exact ⟨_, rest, hpath, fun hgap => by simp [hpart] at hgap⟩
    | inside h hpart => exact ⟨_, _, h, fun hgap => by simp [hgap, Part.isInside] at hpart⟩
    | outside h hpart => exact ⟨_, _, h, fun hgap => by simp [hgap, Part.isOutside] at hpart⟩
  · rintro ⟨front, rest, h, hhead⟩
    cases hpart : partAfter whole front with
    | gap awaits =>
      cases awaits with
      | false =>
        obtain ⟨name, value, hattribute, hname, -, hhost⟩ := h.exists_attribute hpart
        exact .host hattribute hname (hhost.mpr (hhead hpart)) h.within
      | true => exact .outside h (by rw [hpart]; rfl)
    | name =>
      obtain ⟨before, lead, name, value, rfl, hattribute, hlead, hname, hvalue⟩ := h.exists_longer hpart
      exact .longer hattribute hlead hname hvalue fun hmem => h.within (List.mem_append_left _ hmem)
    | slash awaits => exact .outside h (by rw [hpart]; rfl)
    | comment awaits star => exact .inside h (by rw [hpart]; rfl)
    | remark => exact .inside h (by rw [hpart]; rfl)
    | quoted mark => exact .inside h (by rw [hpart]; rfl)
    | code read => exact .inside h (by rw [hpart]; rfl)
    | ended => exact .outside h (by rw [hpart]; rfl)

/-- A path in the value of another attribute is misread. -/
example : Misread (fun _ => false) "title=\"href='/x'\"".toList :=
  misread_iff.mpr ⟨"title=\"".toList, "x'\"".toList,
    ⟨⟨"href".toList, '\x27', by decide, by decide, by decide⟩, by decide⟩, by decide⟩

/-- A tag in which a link to a path can be read has a link of its own to a path in the site, or it is
misread. -/
theorem exists_pathAt_iff (whole : List Char → Bool) : (∃ front rest, PathAt tag front rest) ↔
    HasOpenLink whole tag ∨ Misread whole tag := by
  rw [hasOpenLink_iff, misread_iff]
  constructor
  · rintro ⟨front, rest, h⟩
    by_cases hown : partAfter whole front = .gap false ∧ rest.head? ≠ some '/'
    · exact .inl ⟨front, rest, h, hown⟩
    · exact .inr ⟨front, rest, h, fun hgap => not_not.mp fun hhead => hown ⟨hgap, hhead⟩⟩
  · rintro (⟨front, rest, h, -⟩ | ⟨front, rest, h, -⟩) <;> exact ⟨front, rest, h⟩

end Checkup.Markup
