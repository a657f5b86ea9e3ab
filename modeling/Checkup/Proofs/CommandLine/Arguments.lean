import Checkup.CommandLine.Invocation
import Mathlib.Data.List.Nodup
import Mathlib.Data.List.Perm.Basic

/-!
# Arguments of a check

A check is told its place, flags and switches with values, in any order. What it is told is what it is
asked for.

* `Argument.IsPlain`: an argument whose words mean what they are meant to.
* `readAll_arguments`: the words of plain arguments are read as these arguments.
* `parse_check`: what a command line with the flags of a check asks for.
-/

namespace Checkup

/-- Entries with different keys are looked up alike in any order. -/
theorem Association.lookup_perm {κ α : Type} [BEq κ] [LawfulBEq κ] [DecidableEq κ]
    {l l' : List (κ × α)} (h : l.Perm l') (hn : (l.map Prod.fst).Nodup) (key : κ) :
    l.lookup key = l'.lookup key := by
  induction h with
  | nil => rfl
  | cons entry _ ih => rw [lookup_cons_eq, lookup_cons_eq, ih (List.nodup_cons.mp hn).2]
  | swap a b rest =>
    obtain ⟨k, v⟩ := a
    obtain ⟨k', v'⟩ := b
    have hne : k' ≠ k := fun heq => (List.nodup_cons.mp hn).1 (heq ▸ List.mem_cons_self ..)
    simp only [lookup_cons_eq]
    by_cases ha : key = k
    · rw [if_pos ha, if_neg fun hb => hne (hb.symm.trans ha), if_pos ha]
    · rw [if_neg ha, if_neg ha]
  | trans h _ ih ih' => exact (ih hn).trans (ih' ((h.map Prod.fst).nodup_iff.mp hn))

/-- The entries of those that have a value, with these values. -/
def Association.given {κ α : Type} (l : List (κ × Option α)) : List (κ × α) :=
  l.filterMap fun entry => entry.2.map (entry.1, ·)

theorem Association.keys_given {κ α : Type} (l : List (κ × Option α)) :
    ((given l).map Prod.fst).Sublist (l.map Prod.fst) := by
  induction l with
  | nil => exact .slnil
  | cons entry rest ih =>
    obtain ⟨k, value?⟩ := entry
    cases value? with
    | none => exact ih.cons k
    | some value => exact ih.cons_cons k

theorem Association.lookup_given {κ α : Type} [BEq κ] [LawfulBEq κ] [DecidableEq κ]
    {l : List (κ × Option α)} (hn : (l.map Prod.fst).Nodup) (key : κ) :
    (given l).lookup key = (l.lookup key).join := by
  induction l with
  | nil => rfl
  | cons entry rest ih =>
    obtain ⟨k, value?⟩ := entry
    obtain ⟨hfresh, hrest⟩ := List.nodup_cons.mp hn
    rw [lookup_cons_eq]
    cases value? with
    | none =>
      show (given rest).lookup key = _
      rw [ih hrest]
      split
      · rename_i heq
        have hnone : rest.lookup key = none := by
          refine List.lookup_eq_none_iff.mpr fun entry hentry => ?_
          rw [bne_iff_ne, heq]
          exact fun hkey => hfresh (List.mem_map.mpr ⟨entry, hentry, hkey.symm⟩)
        rw [hnone]
        rfl
      · rfl
    | some value =>
      show List.lookup key ((k, value) :: given rest) = _
      rw [lookup_cons_eq, ih hrest]
      split <;> rfl

namespace CommandLine

/-- One of the things that a check is told. -/
inductive Argument
  | place (path : String)
  | flag (s : Switch)
  | value (s : Switch) (text : String)

namespace Argument

/-- The words on the command line. -/
def words : Argument → List String
  | place path => [path]
  | flag s => [s.long]
  | value s text => [s.long, text]

/-- What the words are. -/
def tokens : Argument → List (String × Word)
  | place path => [(path, .text path)]
  | flag s => [(s.long, .switch s none)]
  | value s text => [(s.long, .switch s none), (text, .text text)]

/-- The place that is given. -/
def place? : Argument → Option String
  | place path => some path
  | _ => none

/-- The switch that is given, with its value. -/
def note? : Argument → Option (String × String)
  | place _ => none
  | flag s => some (s.long, "")
  | value s text => some (s.long, text)

/-- The words mean what they are meant to: switches of a check are given values if they take them, and
what is no switch does not begin with a dash. -/
inductive IsPlain : Argument → Prop
  | place {path : String} (h : Text.startsWith path "-" = false) : IsPlain (.place path)
  | flag {s : Switch} (hs : s ∈ checkSwitches) (hlong : s.long ≠ "--help")
    (hvalue : s.takesValue = false) : IsPlain (.flag s)
  | value {s : Switch} {text : String} (hs : s ∈ checkSwitches) (hvalue : s.takesValue = true)
    (hadmits : s.admits text = true) (h : Text.startsWith text "-" = false) :
    IsPlain (.value s text)

theorem map_fst_tokens (args : List Argument) :
    (args.flatMap tokens).map Prod.fst = args.flatMap words := by
  rw [List.map_flatMap]
  congr 1
  funext a
  cases a <;> rfl

end Argument

/-! ## Words -/

theorem ne_separator_of_undashed {word : String} (h : Text.startsWith word "-" = false) :
    word ≠ separatorText := by
  rintro rfl
  exact absurd h (by decide)

theorem classify_of_undashed {word : String} (h : Text.startsWith word "-" = false)
    (switches : List Switch) : classify switches word = .ok (.text word) := by
  rw [classify, h]
  rfl

/-- The switches of a check are known by their long names. -/
theorem classify_long {s : Switch} (hs : s ∈ checkSwitches) :
    s.long ≠ separatorText ∧ classify checkSwitches s.long = .ok (.switch s none) := by
  simp only [checkSwitches, List.mem_cons, List.not_mem_nil, or_false] at hs
  rcases hs with rfl | rfl | rfl | rfl | rfl | rfl | rfl | rfl | rfl <;> exact ⟨by decide, rfl⟩

/-- Before the command they are not refused, whether or not they are known there. -/
theorem classify_common {s : Switch} (hs : s ∈ checkSwitches) :
    ∃ word, classify commonSwitches s.long = .ok word := by
  simp only [checkSwitches, List.mem_cons, List.not_mem_nil, or_false] at hs
  rcases hs with rfl | rfl | rfl | rfl | rfl | rfl | rfl | rfl | rfl <;> exact ⟨_, rfl⟩

theorem admits_of_flag :
    ∀ s ∈ checkSwitches, s.takesValue = false → s.admits "" = true := by decide

theorem takesValue_of_help :
    ∀ s ∈ checkSwitches, s.long = "--help" → s.takesValue = false := by decide

theorem exists_words {switches : List Switch} {args : List String}
    (h : ∀ arg ∈ args, arg ≠ separatorText ∧ ∃ word, classify switches arg = .ok word) :
    ∃ tokens, words switches args = .ok tokens ∧ tokens.map Prod.fst = args := by
  induction args with
  | nil => exact ⟨[], rfl, rfl⟩
  | cons arg rest ih =>
    obtain ⟨⟨hne, word, hword⟩, hrest⟩ := List.forall_mem_cons.mp h
    obtain ⟨tokens, htokens, hmap⟩ := ih hrest
    refine ⟨(arg, word) :: tokens, ?_, congrArg (arg :: ·) hmap⟩
    rw [words, if_neg hne, hword, htokens]
    rfl

theorem words_of_classified {switches : List Switch} {tokens : List (String × Word)}
    (h : ∀ token ∈ tokens, token.1 ≠ separatorText ∧ classify switches token.1 = .ok token.2) :
    words switches (tokens.map Prod.fst) = .ok tokens := by
  induction tokens with
  | nil => rfl
  | cons token rest ih =>
    obtain ⟨⟨hne, hword⟩, hrest⟩ := List.forall_mem_cons.mp h
    rw [List.map_cons, words, if_neg hne, hword, ih hrest]
    rfl

namespace Argument.IsPlain

variable {a : Argument} {args : List Argument}

/-- Plain arguments are what they are on a check's command line. -/
theorem classified (h : a.IsPlain) : ∀ token ∈ a.tokens,
    token.1 ≠ separatorText ∧ classify checkSwitches token.1 = .ok token.2 := by
  cases h with
  | place h =>
    exact List.forall_mem_singleton.mpr ⟨ne_separator_of_undashed h, classify_of_undashed h _⟩
  | flag hs _ _ => exact List.forall_mem_singleton.mpr (classify_long hs)
  | value hs _ _ h =>
    exact List.forall_mem_cons.mpr ⟨classify_long hs,
      List.forall_mem_singleton.mpr ⟨ne_separator_of_undashed h, classify_of_undashed h _⟩⟩

theorem classified_common (h : a.IsPlain) : ∀ word ∈ a.words,
    word ≠ separatorText ∧ ∃ w, classify commonSwitches word = .ok w := by
  cases h with
  | place h =>
    exact List.forall_mem_singleton.mpr ⟨ne_separator_of_undashed h, _, classify_of_undashed h _⟩
  | flag hs _ _ => exact List.forall_mem_singleton.mpr ⟨(classify_long hs).1, classify_common hs⟩
  | value hs _ _ h =>
    exact List.forall_mem_cons.mpr ⟨⟨(classify_long hs).1, classify_common hs⟩,
      List.forall_mem_singleton.mpr ⟨ne_separator_of_undashed h, _, classify_of_undashed h _⟩⟩

end Argument.IsPlain

theorem words_arguments {args : List Argument} (h : ∀ a ∈ args, a.IsPlain) :
    words checkSwitches (args.flatMap Argument.words) = .ok (args.flatMap Argument.tokens) := by
  rw [← Argument.map_fst_tokens]
  refine words_of_classified fun token htoken => ?_
  obtain ⟨a, ha, hmem⟩ := List.mem_flatMap.mp htoken
  exact (h a ha).classified token hmem

/-! ## Reading -/

/-- What has been read, with one argument more. -/
def Reading.take (r : Reading) : Argument → Reading
  | .place path => if r.isFilled then r.stray else r.fill (some path)
  | .flag s => { r with given := (s.long, "") :: r.given }
  | .value s text => { r with given := (s.long, text) :: r.given }

theorem readAll_argument {a : Argument} (ha : a.IsPlain) (r : Reading) {rest : List (String × Word)}
    (hrest : ∀ token ∈ rest, token.2 ≠ .separator) :
    readAll checkSwitches r (a.tokens ++ rest) = readAll checkSwitches (r.take a) rest := by
  cases ha with
  | place h =>
    cases rest with
    | nil => rfl
    | cons token more =>
      obtain ⟨word, w⟩ := token
      cases w with
      | separator => exact absurd rfl (hrest _ (List.mem_cons_self ..))
      | text s => rfl
      | switch s attached => rfl
      | unknown => rfl
  | @flag s hs hlong hvalue =>
    have hnote : r.note s "" = .ok (r.take (.flag s)) := by
      rw [Reading.note, if_neg hlong, if_pos (admits_of_flag s hs hvalue)]
      rfl
    show readAll checkSwitches r ((s.long, .switch s none) :: rest) = _
    rw [readAll.eq_def]
    dsimp only
    rw [hvalue, if_neg Bool.false_ne_true, readFlags, flagsOf]
    simp only [bind, Except.bind, noteFlags, hnote]
  | @value s text hs hvalue hadmits h =>
    have hlong : s.long ≠ "--help" := fun hhelp => by
      rw [takesValue_of_help s hs hhelp] at hvalue
      cases hvalue
    have hnote : r.note s text = .ok (r.take (.value s text)) := by
      rw [Reading.note, if_neg hlong, if_pos hadmits]
      rfl
    show readAll checkSwitches r ((s.long, .switch s none) :: (text, .text text) :: rest) = _
    rw [readAll, hvalue, if_pos rfl, hnote]
    rfl

theorem no_separator {args : List Argument} :
    ∀ token ∈ args.flatMap Argument.tokens, token.2 ≠ .separator := by
  intro token h
  obtain ⟨a, -, hmem⟩ := List.mem_flatMap.mp h
  cases a <;> simp [Argument.tokens] at hmem <;> rcases hmem with rfl | rfl <;> exact Word.noConfusion

/-- The words of plain arguments are read as these arguments. -/
theorem readAll_arguments {args : List Argument} (h : ∀ a ∈ args, a.IsPlain) (r : Reading) :
    readAll checkSwitches r (args.flatMap Argument.tokens) = .ok (args.foldl Reading.take r) := by
  induction args generalizing r with
  | nil => rfl
  | cons a rest ih =>
    obtain ⟨ha, hrest⟩ := List.forall_mem_cons.mp h
    rw [List.flatMap_cons, readAll_argument ha r no_separator, ih hrest]
    rfl

/-! ## What is asked for -/

theorem given_foldl_take (args : List Argument) (r : Reading) :
    (args.foldl Reading.take r).given = (args.filterMap Argument.note?).reverse ++ r.given := by
  induction args generalizing r with
  | nil => rfl
  | cons a rest ih =>
    rw [List.foldl_cons, ih]
    cases a with
    | place path =>
      rw [List.filterMap_cons_none rfl, Reading.take]
      split <;> rfl
    | flag s => simp [Reading.take, Argument.note?]
    | value s text => simp [Reading.take, Argument.note?]

theorem foldl_take_of_no_place {args : List Argument} (h : args.filterMap Argument.place? = [])
    (r : Reading) : (args.foldl Reading.take r).place = r.place ∧
      (args.foldl Reading.take r).hasStray = r.hasStray := by
  induction args generalizing r with
  | nil => exact ⟨rfl, rfl⟩
  | cons a rest ih =>
    cases a with
    | place path => cases h
    | flag s => exact ih h _
    | value s text => exact ih h _

/-- The only place that is given is taken, and nothing is left over. -/
theorem foldl_take_of_place {args : List Argument} {path : String}
    (h : args.filterMap Argument.place? = [path]) {r : Reading} (hr : r.isFilled = false) :
    (args.foldl Reading.take r).place = some path ∧
      (args.foldl Reading.take r).hasStray = r.hasStray := by
  induction args generalizing r with
  | nil => cases h
  | cons a rest ih =>
    cases a with
    | place p =>
      obtain ⟨rfl, hrest⟩ := List.cons_eq_cons.mp h
      have hfill : r.take (.place p) = r.fill (some p) := by
        rw [Reading.take, hr]
        rfl
      rw [List.foldl_cons, hfill]
      exact foldl_take_of_no_place hrest _
    | flag s => exact ih h hr
    | value s text => exact ih h hr

/-- What a check is asked for, but for the way in which its result is written. -/
structure Flags where
  category : Option String
  project : Option String
  fix : Bool
  dryRun : Bool

namespace Flags

/-- The options of the run. -/
def options (f : Flags) : Options := ⟨f.fix, f.dryRun, f.category, f.project.getD ""⟩

/-- The arguments of the check of a place. -/
def arguments (f : Flags) (path : String) : List Argument :=
  [.place path] ++ (f.category.map (.value categorySwitch)).toList ++
    (f.project.map (.value projectSwitch)).toList ++
    (if f.fix then [.flag fixSwitch] else []) ++ (if f.dryRun then [.flag dryRunSwitch] else [])

/-- The switches for which there are notes, with the values of those that are given, and `s`. -/
def notes (f : Flags) (s : Switch) : List (String × Option String) :=
  [(s.long, some ""), (categorySwitch.long, f.category), (projectSwitch.long, f.project),
    (fixSwitch.long, if f.fix then some "" else none),
    (dryRunSwitch.long, if f.dryRun then some "" else none)]

/-- The category is a known one, and neither the project nor the path can be taken for a switch. -/
structure Accepted (f : Flags) (path : String) : Prop where
  path : Text.startsWith path "-" = false
  category : ∀ name, f.category = some name → Category.isKnownName name = true
  project : ∀ name, f.project = some name → Text.startsWith name "-" = false

end Flags

theorem undashed_of_category {name : String} (h : Category.isKnownName name = true) :
    Text.startsWith name "-" = false := by
  obtain ⟨category, hmem, hname⟩ := List.any_eq_true.mp h
  have hall : ∀ category ∈ Category.known, Text.startsWith category.name "-" = false := by decide
  exact of_decide_eq_true hname ▸ hall category hmem

namespace Flags.Accepted

variable {f : Flags} {path : String}

theorem plain (h : f.Accepted path) : ∀ a ∈ f.arguments path, a.IsPlain := by
  intro a ha
  unfold arguments at ha
  simp only [List.mem_append, List.mem_singleton, Option.mem_toList] at ha
  rcases ha with (((rfl | ha) | ha) | ha) | ha
  · exact .place h.path
  · obtain ⟨name, hname, rfl⟩ := Option.map_eq_some_iff.mp ha
    have hknown := h.category name hname
    exact .value (by simp [checkSwitches]) rfl hknown (undashed_of_category hknown)
  · obtain ⟨name, hname, rfl⟩ := Option.map_eq_some_iff.mp ha
    exact .value (by simp [checkSwitches]) rfl rfl (h.project name hname)
  · split at ha
    · obtain rfl := List.mem_singleton.mp ha
      exact .flag (by simp [checkSwitches]) (by decide) rfl
    · cases ha
  · split at ha
    · obtain rfl := List.mem_singleton.mp ha
      exact .flag (by simp [checkSwitches]) (by decide) rfl
    · cases ha

end Flags.Accepted

/-- The switch asks for a style. -/
inductive Style.AskedBy : Style → Switch → Prop
  | json : AskedBy ⟨true, false⟩ jsonSwitch
  | score : AskedBy ⟨false, true⟩ scoreSwitch

namespace Style.AskedBy

variable {style : Style} {s : Switch} {f : Flags} {path : String}

theorem plain (h : style.AskedBy s) : (Argument.flag s).IsPlain := by
  cases h <;> exact .flag (by simp [checkSwitches]) (by decide) rfl

theorem places_eq (h : style.AskedBy s) :
    (Argument.flag s :: f.arguments path).filterMap Argument.place? = [path] := by
  obtain ⟨category, project, fix, dryRun⟩ := f
  cases h <;> cases category <;> cases project <;> cases fix <;> cases dryRun <;> rfl

theorem notes_eq (h : style.AskedBy s) :
    (Argument.flag s :: f.arguments path).filterMap Argument.note? =
      Association.given (f.notes s) := by
  obtain ⟨category, project, fix, dryRun⟩ := f
  cases h <;> cases category <;> cases project <;> cases fix <;> cases dryRun <;> rfl

/-- No switch is given twice. -/
theorem nodup_notes (h : style.AskedBy s) : ((f.notes s).map Prod.fst).Nodup := by
  cases h <;> exact of_decide_eq_true rfl

/-- What the flags of a check and a switch for a style come to. -/
theorem checkOf_eq (h : style.AskedBy s) {r : Reading} (hplace : r.place = some path)
    (hgiven : ∀ name, r.given.lookup name = ((f.notes s).lookup name).join) :
    checkOf r = .check path f.options style ∧ r.flag verboseSwitch.long = false := by
  have hset : ∀ b : Bool, (if b then some "" else none).isSome = b := by decide
  have hfix : r.flag fixSwitch.long = f.fix := by
    rw [Reading.flag, hgiven]
    cases h <;> exact hset f.fix
  have hdryRun : r.flag dryRunSwitch.long = f.dryRun := by
    rw [Reading.flag, hgiven]
    cases h <;> exact hset f.dryRun
  have hoptions : optionsOf r = f.options := by
    unfold optionsOf Reading.value?
    rw [hfix, hdryRun, hgiven, hgiven]
    cases h <;> rfl
  have hstyle : (⟨r.flag jsonSwitch.long, r.flag scoreSwitch.long⟩ : Style) = style := by
    rw [Reading.flag, Reading.flag, hgiven, hgiven]
    cases h <;> rfl
  refine ⟨by rw [checkOf, hplace, hoptions, hstyle]; rfl, ?_⟩
  rw [Reading.flag, hgiven]
  cases h <;> rfl

end Style.AskedBy

/-- A command line with the flags of a check and a switch for a style, in any order, asks for that check
in this style. -/
theorem parse_check {f : Flags} {path : String} (hf : f.Accepted path) {style : Style} {s : Switch}
    (hs : style.AskedBy s) {args : List Argument} (hargs : args.Perm (.flag s :: f.arguments path)) :
    parse ("check" :: args.flatMap Argument.words) =
      .ok ⟨false, none, .check path f.options style⟩ := by
  have hplain : ∀ a ∈ args, a.IsPlain := fun a ha => by
    rcases List.mem_cons.mp (hargs.subset ha) with rfl | ha
    · exact hs.plain
    · exact hf.plain a ha
  have hwords : ∀ word ∈ args.flatMap Argument.words,
      word ≠ separatorText ∧ ∃ token, classify commonSwitches word = .ok token := fun word hword => by
    obtain ⟨a, ha, hmem⟩ := List.mem_flatMap.mp hword
    exact (hplain a ha).classified_common word hmem
  obtain ⟨tokens, htokens, hmap⟩ := exists_words hwords
  have hcommon : words commonSwitches ("check" :: args.flatMap Argument.words) =
      .ok (("check", .text "check") :: tokens) := by
    rw [words, if_neg (by decide), htokens]
    rfl
  have hplaces : args.filterMap Argument.place? = [path] := by
    have hperm := hargs.filterMap Argument.place?
    rw [hs.places_eq] at hperm
    exact List.perm_singleton.mp hperm
  obtain ⟨hplace, hstray⟩ := foldl_take_of_place hplaces (r := {}) rfl
  have hgiven : ∀ name, (args.foldl Reading.take {}).given.lookup name =
      ((f.notes s).lookup name).join := by
    intro name
    have hperm := hargs.filterMap Argument.note?
    rw [hs.notes_eq] at hperm
    have hnodup := hs.nodup_notes.sublist (Association.keys_given (f.notes s))
    rw [given_foldl_take, List.append_nil, ← Association.lookup_given hs.nodup_notes]
    exact (Association.lookup_perm ((List.reverse_perm _).trans hperm).symm hnodup name).symm
  obtain ⟨hcommand, hverbose⟩ := hs.checkOf_eq hplace hgiven
  have hread : readCommand checkSwitches true (args.flatMap Argument.words) =
      .ok (args.foldl Reading.take {}) := by
    rw [readCommand, words_arguments hplain]
    exact readAll_arguments hplain _
  have haccepted : accepted (args.foldl Reading.take {}) = .ok (args.foldl Reading.take {}) := by
    rw [accepted, hstray]
    rfl
  simp only [parse, hcommon, readToCommand, commandOf, hmap, hread, bind, Except.bind, Except.map,
    haccepted, hcommand, hverbose]
  rfl

end CommandLine

end Checkup
