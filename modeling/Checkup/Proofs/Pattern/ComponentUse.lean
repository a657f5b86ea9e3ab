import Mathlib.Algebra.BigOperators.Group.List.Basic
import Mathlib.Algebra.GroupWithZero.Nat
import Mathlib.Data.List.Infix
import Mathlib.Tactic.Tauto
import Checkup.Proofs.Pattern.Stepping

/-!
# Uses of a component on lines

The pattern for uses of a component does not go on from one line to the next: the import and the
component must be on one line, and of a tag only the newline that ends its name may be the last character
of the line. So the uses in a text are counted line by line. On a line the tags count up to the first
place where an import has the component behind it. The pattern takes such an import up to the last mention
of the component on the line, so it counts once, and nothing behind it.

* `usesOnLine`: the number of uses on a line.
* `length_allAt_line`: the pattern finds as many uses on a line as are counted there.
* `length_all_texts`: the uses in texts are those on their lines.
* `usesOnLine_pos_of_tag`, `usesOnLine_pos_of_import`: lines with a use.
-/

namespace Checkup.Pattern

open Text (isBlank)

variable {p : Pattern} {place : Cursor} {found : Found} {name line rest below : List Char}
  {before : Option Char}

/-! ## Counting on a line -/

/-- The character ends the name in a tag. -/
def endsTagName (c : Char) : Bool := isBlank c || c == '/' || c == '>'

/-- What is left of a line behind an opening tag at its start. The end of the line ends a name. -/
def behindTag? (name line : List Char) : Option (List Char) :=
  (line.dropPrefix? ('<' :: name)).bind fun
    | [] => some []
    | c :: rest => if endsTagName c then some rest else none

/-- A line begins with an import, and names the component behind it. -/
def importsAt (name line : List Char) : Bool :=
  (line.dropPrefix? "import".toList).any (Text.occurs name)

theorem dropPrefix?_eq_some {front : List Char} : line.dropPrefix? front = some rest ↔ line = front ++ rest := by
  simp [List.dropPrefix?_eq_some_iff]

theorem behindTag?_eq_some : behindTag? name line = some rest ↔
    (line = '<' :: name ∧ rest = []) ∨ ∃ c, endsTagName c = true ∧ line = '<' :: (name ++ c :: rest) := by
  simp only [behindTag?, Option.bind_eq_some_iff, dropPrefix?_eq_some]
  constructor
  · rintro ⟨left, rfl, hleft⟩
    cases left with
    | nil =>
      cases hleft
      exact .inl ⟨by simp, rfl⟩
    | cons c left =>
      by_cases hc : endsTagName c = true
      · simp only [hc, if_true, Option.some_inj] at hleft
        exact .inr ⟨c, hc, by simp [hleft]⟩
      · simp [hc] at hleft
  · rintro (⟨rfl, rfl⟩ | ⟨c, hc, rfl⟩)
    · exact ⟨[], by simp, rfl⟩
    · exact ⟨c :: rest, by simp, by simp [hc]⟩

theorem importsAt_iff : importsAt name line = true ↔
    ∃ front behind, line = "import".toList ++ (front ++ (name ++ behind)) := by
  simp only [importsAt, Option.any_eq_true, dropPrefix?_eq_some, Text.occurs_iff]
  constructor
  · rintro ⟨left, rfl, front, behind, rfl⟩
    exact ⟨front, behind, by simp⟩
  · rintro ⟨front, behind, rfl⟩
    exact ⟨_, rfl, front, behind, by simp⟩

theorem behindTag?_length (h : behindTag? name line = some rest) : rest.length < line.length := by
  rcases behindTag?_eq_some.mp h with ⟨rfl, rfl⟩ | ⟨c, -, rfl⟩
  · exact Nat.succ_pos _
  · simp only [List.length_cons, List.length_append]
    omega

/-- The number of uses of a component on a line. -/
def usesOnLine (name : List Char) : List Char → Nat
  | [] => 0
  | c :: rest =>
    match _h : behindTag? name (c :: rest) with
    | some behind => usesOnLine name behind + 1
    | none => if importsAt name (c :: rest) then 1 else usesOnLine name rest
termination_by line => line.length
decreasing_by
  · exact behindTag?_length _h
  · exact Nat.lt_succ_self _

theorem usesOnLine_nil (name : List Char) : usesOnLine name [] = 0 := by rw [usesOnLine]

theorem usesOnLine_tag (h : behindTag? name line = some rest) :
    usesOnLine name line = usesOnLine name rest + 1 := by
  cases line with
  | nil => cases behindTag?_length h
  | cons c line =>
    rw [usesOnLine]
    split
    · rename_i behind hbehind
      rw [h, Option.some_inj] at hbehind
      rw [hbehind]
    · rename_i hnone
      rw [h] at hnone
      cases hnone

theorem usesOnLine_import (h : importsAt name line = true) : usesOnLine name line = 1 := by
  obtain ⟨front, behind, hline⟩ := importsAt_iff.mp h
  have htag : behindTag? name line = none := by
    rw [Option.eq_none_iff_forall_ne_some]
    intro left hleft
    rcases behindTag?_eq_some.mp hleft with ⟨htag, -⟩ | ⟨c, -, htag⟩ <;>
    · rw [htag] at hline
      exact absurd (List.cons.inj hline).1 (by decide)
  cases line with
  | nil => cases hline
  | cons c line =>
    rw [usesOnLine]
    split
    · rename_i behind hbehind
      rw [htag] at hbehind
      cases hbehind
    · rw [if_pos h]

theorem usesOnLine_cons {c : Char} (htag : behindTag? name (c :: line) = none)
    (himport : importsAt name (c :: line) = false) : usesOnLine name (c :: line) = usesOnLine name line := by
  rw [usesOnLine]
  split
  · rename_i behind hbehind
    rw [htag] at hbehind
    cases hbehind
  · simp [himport]

/-- A use somewhere on a line counts, or another one before it does. -/
theorem usesOnLine_pos_of_suffix (h : behindTag? name rest ≠ none ∨ importsAt name rest = true)
    (front : List Char) : 0 < usesOnLine name (front ++ rest) := by
  have hcounts : ∀ line, behindTag? name line ≠ none ∨ importsAt name line = true →
      0 < usesOnLine name line := by
    intro line hline
    rcases hline with htag | himport
    · obtain ⟨behind, hbehind⟩ := Option.ne_none_iff_exists'.mp htag
      rw [usesOnLine_tag hbehind]
      exact Nat.succ_pos _
    · rw [usesOnLine_import himport]
      exact Nat.one_pos
  induction front with
  | nil => exact hcounts rest h
  | cons c front ih =>
    by_cases hhere : behindTag? name (c :: (front ++ rest)) ≠ none ∨
        importsAt name (c :: (front ++ rest)) = true
    · exact hcounts _ hhere
    · rw [not_or, not_not, Bool.not_eq_true] at hhere
      rw [List.cons_append, usesOnLine_cons hhere.1 hhere.2]
      exact ih

/-- There is no use where the component is not named. -/
theorem usesOnLine_eq_zero (h : ¬ name <:+: line) : usesOnLine name line = 0 := by
  induction line with
  | nil => exact usesOnLine_nil name
  | cons c line ih =>
    have htag : behindTag? name (c :: line) = none := by
      rw [Option.eq_none_iff_forall_ne_some]
      intro left hleft
      refine h ?_
      rcases behindTag?_eq_some.mp hleft with ⟨hline, -⟩ | ⟨d, -, hline⟩
      · exact ⟨['<'], [], by simp [hline]⟩
      · exact ⟨['<'], d :: left, by simp [hline]⟩
    have himport : importsAt name (c :: line) = false := by
      rw [Bool.eq_false_iff]
      intro himport
      obtain ⟨front, behind, hline⟩ := importsAt_iff.mp himport
      exact h ⟨"import".toList ++ front, behind, by simp [hline]⟩
    rw [usesOnLine_cons htag himport]
    exact ih fun hline => h (hline.trans (List.suffix_cons c line).isInfix)

/-! ## Matches -/

/-- The opening tag of a component. -/
def openingTag (name : String) : Pattern := sequence [char '<', text name, one endsTagName]

/-- An import that names the component later on the line. -/
def importOf (name : String) : Pattern := sequence [text "import", run (· != '\n'), text name]

theorem componentUse_eq (name : String) : componentUse name = either (openingTag name) (importOf name) := rfl

theorem matchAt?_componentUse {name : String} : (componentUse name).matchAt? place =
    ((openingTag name).matchAt? place).or ((importOf name).matchAt? place) := by
  unfold matchAt?
  rw [componentUse_eq, matchThen]
  cases (openingTag name).matchThen place fun after => some ⟨[], after⟩ <;> rfl

theorem matches_openingTag {name : String} (h : Matches (openingTag name) place found) :
    ∃ c, endsTagName c = true ∧ place.rest = '<' :: (name.toList ++ c :: found.after.rest) ∧
      found.after = .past c found.after.rest := by
  cases h with
  | seq hopen h =>
    cases h with
    | seq hname hend =>
      obtain ⟨c, hc, hrest, -, hafter⟩ := matches_one hend
      refine ⟨c, hc, ?_, hafter⟩
      rw [matches_char hopen, matches_literal hname, hrest]

theorem matches_importOf {name : String} (h : Matches (importOf name) place found) :
    ∃ front, (∀ c ∈ front, c ≠ '\n') ∧
      place.rest = "import".toList ++ (front ++ (name.toList ++ found.after.rest)) := by
  cases h with
  | seq himport h =>
    cases h with
    | seq hrun hname =>
      obtain ⟨front, hrest, hfront⟩ := matches_run hrun
      refine ⟨front, fun c hc => by simpa using hfront c hc, ?_⟩
      rw [matches_literal himport, hrest, matches_literal hname]

theorem exists_matches_openingTag (name : String) {c : Char} (hc : endsTagName c = true)
    (before : Option Char) (rest : List Char) :
    ∃ found, Matches (openingTag name) ⟨before, '<' :: (name.toList ++ c :: rest)⟩ found := by
  obtain ⟨before', hname⟩ := exists_matches_literal name.toList (some '<') (c :: rest)
  exact ⟨_, .seq (.one before _ (by decide)) (.seq hname (.one before' rest hc))⟩

theorem exists_matches_importOf (name : String) {front : List Char} (hfront : ∀ c ∈ front, c ≠ '\n')
    (before : Option Char) (rest : List Char) : ∃ found, Matches (importOf name)
      ⟨before, "import".toList ++ (front ++ (name.toList ++ rest))⟩ found := by
  obtain ⟨before₁, himport⟩ :=
    exists_matches_literal "import".toList before (front ++ (name.toList ++ rest))
  have hline : ∀ c ∈ front, (c != '\n') = true := fun c hc => by simpa using hfront c hc
  obtain ⟨before₂, hrun⟩ := exists_matches_run hline before₁ (name.toList ++ rest)
  obtain ⟨before₃, hname⟩ := exists_matches_literal name.toList before₂ rest
  exact ⟨_, .seq himport (.seq hrun hname)⟩

theorem takes_componentUse (name : String) : (componentUse name).Takes := by
  intro place found h
  rw [componentUse_eq] at h
  cases h with
  | eitherLeft h =>
    obtain ⟨c, -, hrest, -⟩ := matches_openingTag h
    simp only [hrest, List.length_cons, List.length_append]
    omega
  | eitherRight h =>
    obtain ⟨front, -, hrest⟩ := matches_importOf h
    have hlength : "import".toList.length = 6 := by decide
    simp only [hrest, List.length_append, hlength]
    omega

/-- An import is taken up to the last mention of the component on the line. -/
theorem length_le_of_importOf {name : String} {front behind : List Char}
    (h : (importOf name).matchAt? place = some found) (hfront : ∀ c ∈ front, c ≠ '\n')
    (hplace : place.rest = "import".toList ++ (front ++ (name.toList ++ behind))) :
    found.after.rest.length ≤ behind.length := by
  obtain ⟨first, second, himport, hsecond, rfl⟩ := matchAt?_seq h
  have hrest : first.after.rest = front ++ (name.toList ++ behind) :=
    List.append_cancel_left ((matches_literal himport).symm.trans hplace)
  obtain ⟨after, -, hname, hleast⟩ := exists_of_matchAt?_run hsecond
  have hline : ∀ c ∈ front, (c != '\n') = true := fun c hc => by simpa using hfront c hc
  obtain ⟨before', hrun⟩ := exists_matches_run hline first.after.before (name.toList ++ behind)
  obtain ⟨before'', hmatch⟩ := exists_matches_literal name.toList before' behind
  obtain ⟨other, -, hother⟩ := matchAt?_of_matches hmatch
  rw [← hrest] at hrun
  have hle := hleast _ hrun (by rw [sequence, text, hother]; simp)
  have hafter : after.rest = name.toList ++ second.after.rest := matches_literal (matches_of_matchAt? hname)
  have hless : second.after.rest.length ≤ behind.length := by simpa [hafter] using hle
  exact hless

/-! ## Line by line -/

/-- What is taken without a newline from a text is taken from its first line. -/
theorem exists_line {front : List Char} (hfront : '\n' ∉ front) (h : front ++ rest = line ++ '\n' :: below) :
    ∃ line', line = front ++ line' ∧ rest = line' ++ '\n' :: below := by
  rcases List.append_eq_append_iff.mp h with ⟨part, rfl, hrest⟩ | ⟨part, rfl, hline⟩
  · exact ⟨part, rfl, hrest⟩
  · rcases List.cons_eq_append_iff.mp hline with ⟨rfl, rfl⟩ | ⟨part, rfl, -⟩
    · exact ⟨[], by simp, rfl⟩
    · exact absurd (by simp) hfront

/-- A use at the start of a line is matched there. -/
theorem exists_matches_line {name : String}
    (h : behindTag? name.toList line ≠ none ∨ importsAt name.toList line = true) (hline : '\n' ∉ line)
    (before : Option Char) (below : List Char) :
    ∃ found, Matches (componentUse name) ⟨before, line ++ '\n' :: below⟩ found := by
  rw [componentUse_eq]
  rcases h with htag | himport
  · obtain ⟨behind, hbehind⟩ := Option.ne_none_iff_exists'.mp htag
    obtain ⟨c, rest, hc, htext⟩ : ∃ c rest, endsTagName c = true ∧
        line ++ '\n' :: below = '<' :: (name.toList ++ c :: rest) := by
      rcases behindTag?_eq_some.mp hbehind with ⟨rfl, rfl⟩ | ⟨c, hc, rfl⟩
      · exact ⟨'\n', below, by decide, by simp⟩
      · exact ⟨c, behind ++ '\n' :: below, hc, by simp⟩
    rw [htext]
    obtain ⟨found, hfound⟩ := exists_matches_openingTag name hc before rest
    exact ⟨found, .eitherLeft hfound⟩
  · obtain ⟨front, behind, rfl⟩ := importsAt_iff.mp himport
    have hfront : ∀ c ∈ front, c ≠ '\n' := by
      rintro c hc rfl
      exact hline (by simp [hc])
    obtain ⟨found, hfound⟩ := exists_matches_importOf name hfront before (behind ++ '\n' :: below)
    simp only [List.append_assoc]
    exact ⟨found, .eitherRight hfound⟩

section Line

variable {component : String} (hname : '\n' ∉ component.toList)
  (hplace : place.rest = line ++ '\n' :: below) (hline : '\n' ∉ line)

include hname hplace hline

/-- A tag is counted once. It may take the newline at the end of the line. -/
theorem usesOnLine_of_openingTag (h : (openingTag component).matchAt? place = some found) :
    (found.after = .past '\n' below ∧ usesOnLine component.toList line = 1) ∨
      ∃ line', found.after.rest = line' ++ '\n' :: below ∧ '\n' ∉ line' ∧
        usesOnLine component.toList line = usesOnLine component.toList line' + 1 := by
  obtain ⟨c, hc, hrest, hafter⟩ := matches_openingTag (matches_of_matchAt? h)
  have hfront : '\n' ∉ '<' :: component.toList := by simp [hname]
  obtain ⟨line', rfl, hbehind⟩ := exists_line hfront (hrest.symm.trans hplace)
  cases line' with
  | nil =>
    obtain ⟨rfl, hbelow⟩ := List.cons.inj hbehind
    rw [hbelow] at hafter
    have hcount : behindTag? component.toList ('<' :: component.toList ++ []) = some [] :=
      behindTag?_eq_some.mpr (.inl ⟨List.append_nil _, rfl⟩)
    exact .inl ⟨hafter, by rw [usesOnLine_tag hcount, usesOnLine_nil]⟩
  | cons d line' =>
    obtain ⟨rfl, hbelow⟩ := List.cons.inj hbehind
    have hcount : behindTag? component.toList ('<' :: component.toList ++ c :: line') = some line' :=
      behindTag?_eq_some.mpr (.inr ⟨c, hc, rfl⟩)
    exact .inr ⟨line', hbelow, fun h => hline (by simp [h]), usesOnLine_tag hcount⟩

/-- An import is counted once, and nothing behind its match. -/
theorem usesOnLine_of_importOf (hne : component ≠ "") (h : (importOf component).matchAt? place = some found) :
    ∃ line', found.after.rest = line' ++ '\n' :: below ∧ '\n' ∉ line' ∧
      usesOnLine component.toList line = usesOnLine component.toList line' + 1 := by
  obtain ⟨front, hfront, hrest⟩ := matches_importOf (matches_of_matchAt? h)
  have hnewline : '\n' ∉ "import".toList ++ (front ++ component.toList) := by
    have hword : '\n' ∉ "import".toList := by decide
    have hclause : '\n' ∉ front := fun hc => hfront _ hc rfl
    simp only [List.mem_append, not_or]
    exact ⟨hword, hclause, hname⟩
  have htext : place.rest = "import".toList ++ (front ++ component.toList) ++ found.after.rest := by
    rw [hrest]
    simp only [List.append_assoc]
  obtain ⟨line', rfl, hbelow⟩ := exists_line hnewline (htext.symm.trans hplace)
  -- were the component named once more on the line, the match would go on up to there
  have hlast : ¬ component.toList <:+: line' := by
    rintro ⟨more, behind, rfl⟩
    have hmore : ∀ c ∈ front ++ (component.toList ++ more), c ≠ '\n' := by
      rintro c hc rfl
      exact hline (by simp only [List.mem_append] at hc ⊢; tauto)
    have hmention : place.rest = "import".toList ++
        (front ++ (component.toList ++ more) ++ (component.toList ++ (behind ++ '\n' :: below))) := by
      rw [hrest, hbelow]
      simp only [List.append_assoc]
    have hle := length_le_of_importOf h hmore hmention
    have hlength := List.length_pos_of_ne_nil (String.toList_eq_nil_iff.not.mpr hne)
    rw [hbelow] at hle
    simp only [List.length_append] at hle
    omega
  have hcount : importsAt component.toList ("import".toList ++ (front ++ component.toList) ++ line') = true :=
    importsAt_iff.mpr ⟨front, line', by simp only [List.append_assoc]⟩
  refine ⟨line', hbelow, fun h => hline (List.mem_append_right _ h), ?_⟩
  rw [usesOnLine_import hcount, usesOnLine_eq_zero hlast]

/-- The uses from a place on are those on the rest of its line and those on the lines below. -/
theorem length_allAt_line (hne : component ≠ "") : ((componentUse component).allAt place).length =
    usesOnLine component.toList line + ((componentUse component).allAt (.past '\n' below)).length := by
  have htakes : (componentUse component).Takes := takes_componentUse component
  induction place using htakes.induction generalizing line with
  | stop before => exact absurd hplace (by simp)
  | hit place found hat ih =>
    rw [allAt_of_match htakes hat, List.length_cons]
    rw [matchAt?_componentUse] at hat
    obtain ⟨hafter, hcount⟩ | ⟨line', hbelow, hline', hcount⟩ :
        (found.after = .past '\n' below ∧ usesOnLine component.toList line = 1) ∨
          ∃ line', found.after.rest = line' ++ '\n' :: below ∧ '\n' ∉ line' ∧
            usesOnLine component.toList line = usesOnLine component.toList line' + 1 := by
      rcases Option.or_eq_some_iff.mp hat with htag | ⟨-, himport⟩
      · exact usesOnLine_of_openingTag hname hplace hline htag
      · exact .inr (usesOnLine_of_importOf hname hplace hline hne himport)
    · rw [hafter, hcount]
      omega
    · rw [ih hbelow hline', hcount]
      omega
  | miss before c rest hat ih =>
    rw [allAt_of_none htakes hat]
    cases line with
    | nil =>
      obtain ⟨rfl, rfl⟩ := List.cons.inj hplace
      rw [usesOnLine_nil, Nat.zero_add]
      rfl
    | cons d line =>
      obtain ⟨rfl, hrest⟩ := List.cons.inj hplace
      have hnone : ¬ (behindTag? component.toList (c :: line) ≠ none ∨
          importsAt component.toList (c :: line) = true) := by
        intro huse
        obtain ⟨found, hfound⟩ := exists_matches_line huse hline before below
        rw [← hplace] at hfound
        obtain ⟨first, -, hfirst⟩ := matchAt?_of_matches hfound
        rw [hat] at hfirst
        cases hfirst
      rw [not_or, not_not, Bool.not_eq_true] at hnone
      rw [usesOnLine_cons hnone.1 hnone.2]
      exact ih hrest fun h => hline (List.mem_cons_of_mem c h)

end Line

/-! ## Texts -/

/-- The number of uses of a component on some lines. -/
def usesOn (name : List Char) (lines : List (List Char)) : Nat := (lines.map (usesOnLine name)).sum

theorem usesOn_append (name : List Char) (first second : List (List Char)) :
    usesOn name (first ++ second) = usesOn name first + usesOn name second := by
  simp [usesOn]

/-- The uses in a text are those on its lines. -/
theorem length_allAt_text {component : String} (hne : component ≠ "") (hname : '\n' ∉ component.toList)
    (text below : List Char) (before : Option Char) :
    ((componentUse component).allAt ⟨before, text ++ '\n' :: below⟩).length =
      usesOn component.toList (Text.splitOn '\n' text) +
        ((componentUse component).allAt (.past '\n' below)).length := by
  have hlines : ∀ line ∈ Text.splitOn '\n' text, '\n' ∉ line := fun line hline hmem => by
    simpa using Text.not_stop_of_mem_splitWhere hline '\n' hmem
  have hsome : Text.splitOn '\n' text ≠ [] := Text.splitWhere_ne_nil _ _
  have hglue := Text.glue_splitOn '\n' text
  generalize Text.splitOn '\n' text = lines at hlines hsome hglue
  induction lines generalizing text before with
  | nil => exact absurd rfl hsome
  | cons line rest ih =>
    have hline := hlines line (List.mem_cons_self ..)
    cases rest with
    | nil =>
      obtain rfl : line = text := hglue
      rw [length_allAt_line hname rfl hline hne]
      simp [usesOn]
    | cons next more =>
      obtain rfl : line ++ '\n' :: Text.glue '\n' (next :: more) = text := hglue
      have hsplit : line ++ '\n' :: Text.glue '\n' (next :: more) ++ '\n' :: below =
          line ++ '\n' :: (Text.glue '\n' (next :: more) ++ '\n' :: below) := by simp
      rw [hsplit, length_allAt_line hname rfl hline hne, Cursor.past,
        ih _ _ (fun l hl => hlines l (List.mem_cons_of_mem _ hl)) (List.cons_ne_nil _ _) rfl]
      simp only [usesOn, List.map_cons, List.sum_cons]
      omega

/-- The uses in texts on lines of their own are those on all their lines. -/
theorem length_all_texts {component : String} (hne : component ≠ "") (hname : '\n' ∉ component.toList)
    (texts : List String) :
    ((componentUse component).all (String.join (texts.map (· ++ "\n"))).toList).length =
      usesOn component.toList (texts.flatMap fun text => Text.splitOn '\n' text.toList) := by
  have hall : ∀ before, ((componentUse component).allAt
      ⟨before, (String.join (texts.map (· ++ "\n"))).toList⟩).length =
        usesOn component.toList (texts.flatMap fun text => Text.splitOn '\n' text.toList) := by
    induction texts with
    | nil =>
      intro before
      rw [List.map_nil, String.join_nil, String.toList_empty, allAt_end (takes_componentUse component)]
      rfl
    | cons text rest ih =>
      intro before
      have hsplit : (String.join ((text :: rest).map (· ++ "\n"))).toList =
          text.toList ++ '\n' :: (String.join (rest.map (· ++ "\n"))).toList := by
        simp [String.join_cons]
      rw [hsplit, length_allAt_text hne hname, Cursor.past, ih, List.flatMap_cons, usesOn_append]
  exact hall none

/-! ## Lines with a use -/

theorem usesOnLine_pos_of_tag (front : List Char) (h : ∀ c ∈ rest.head?, endsTagName c = true) :
    0 < usesOnLine name (front ++ '<' :: (name ++ rest)) := by
  refine usesOnLine_pos_of_suffix (.inl ?_) front
  cases rest with
  | nil =>
    have hbehind : behindTag? name ('<' :: (name ++ [])) = some [] :=
      behindTag?_eq_some.mpr (.inl ⟨by simp, rfl⟩)
    rw [hbehind]
    exact Option.some_ne_none _
  | cons c rest =>
    have hbehind : behindTag? name ('<' :: (name ++ c :: rest)) = some rest :=
      behindTag?_eq_some.mpr (.inr ⟨c, h c rfl, rfl⟩)
    rw [hbehind]
    exact Option.some_ne_none _

theorem usesOnLine_pos_of_import (front middle rest : List Char) :
    0 < usesOnLine name (front ++ ("import".toList ++ (middle ++ (name ++ rest)))) :=
  usesOnLine_pos_of_suffix (.inr (importsAt_iff.mpr ⟨middle, rest, rfl⟩)) front

end Checkup.Pattern
