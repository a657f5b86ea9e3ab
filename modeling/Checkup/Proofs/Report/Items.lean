import Checkup.Proofs.Run.Scoring
import Checkup.Proofs.Run.Results

/-!
# What a report for readers shows

A report is written from two sources. Its groups come from the results of the rules, its last lines
from the list of findings. The groups are those of the known categories, so a result of another category
would be left out. The results of a run agree with its findings: a rule is passed if nothing was found,
and all rules together have all findings. So the items of a report are those of the findings, and its
numbers count the items.

An item begins with its mark. No other line of a report does, whatever the names in it are.

* `Report.hasMark`, `Report.entries`: the items of a report, and what stands in the group of a category.
* `Report.filter_lines`: the items of all lines, in order.
* `Report.report_shows_findings`: the report of a run.
-/

namespace List

/-- Grouping by keys of which each comes once loses no element whose key is among them. -/
theorem perm_flatMap_filter {α κ : Type} [DecidableEq κ] {keys : List κ} {values : List α}
    {key : α → κ} (hnodup : keys.Nodup) (hkeys : ∀ a ∈ values, key a ∈ keys) :
    (keys.flatMap fun k => values.filter fun a => key a = k).Perm values := by
  induction keys generalizing values with
  | nil =>
    rw [eq_nil_iff_forall_not_mem.mpr fun a ha => not_mem_nil (hkeys a ha)]
    exact Perm.refl _
  | cons k rest ih =>
    obtain ⟨hk, hrest⟩ := nodup_cons.mp hnodup
    have hleft : ∀ a ∈ values.filter fun a => !decide (key a = k), key a ∈ rest := by
      intro a ha
      obtain ⟨hmem, hne⟩ := mem_filter.mp ha
      exact (mem_cons.mp (hkeys a hmem)).resolve_left (by simpa using hne)
    have hothers := ih hrest hleft
    have hgroups : (rest.flatMap fun k' => (values.filter fun a => !decide (key a = k)).filter
        fun a => key a = k') = rest.flatMap fun k' => values.filter fun a => key a = k' := by
      refine flatMap_congr fun k' hk' => ?_
      rw [filter_filter]
      refine filter_congr fun a _ => ?_
      by_cases heq : key a = k'
      · have hne : k' ≠ k := fun h => hk (h ▸ hk')
        simp [heq, hne]
      · simp [heq]
    rw [hgroups] at hothers
    rw [flatMap_cons]
    exact (hothers.append_left _).trans (filter_append_perm _ values)

end List

namespace Checkup

namespace Label

variable {start part : String}

theorem append_assoc (a b c : Label) : a ++ b ++ c = a ++ (b ++ c) :=
  points_inj (by simp only [points_append, List.append_assoc])

theorem startsWith_iff {l : Label} : l.startsWith part = true ↔ pointsOf part <+: l.points := by
  cases l with
  | loose points h => exact List.isPrefixOf_iff_prefix
  | text s =>
    refine List.isPrefixOf_iff_prefix.trans ⟨fun h => h.map Char.toNat, ?_⟩
    rintro ⟨rest, h⟩
    obtain ⟨front, back, hs, hfront, -⟩ := List.map_eq_append_iff.mp h.symm
    obtain rfl := (List.map_inj_right fun _ _ => Char.toNat_inj.mp).mp hfront
    exact ⟨back, hs.symm⟩

theorem startsWith_append (part : String) (rest : Label) :
    (.text part ++ rest : Label).startsWith part = true := by
  rw [startsWith_iff, points_append]
  exact List.prefix_append _ _

/-- A label starts with one of two parts only, if neither starts with the other. -/
theorem startsWith_append_of_apart (h : Text.startsWith start part = false)
    (h' : Text.startsWith part start = false) (rest : Label) :
    (.text start ++ rest : Label).startsWith part = false := by
  have hstart : ¬ pointsOf part <+: pointsOf start := fun hpart =>
    Bool.false_ne_true (h.symm.trans (startsWith_iff (l := .text start).mpr hpart))
  have hpart : ¬ pointsOf start <+: pointsOf part := fun hstart =>
    Bool.false_ne_true (h'.symm.trans (startsWith_iff (l := .text part).mpr hstart))
  rw [← Bool.not_eq_true, startsWith_iff, points_append]
  intro hprefix
  exact (List.prefix_or_prefix_of_prefix hprefix (List.prefix_append _ _)).elim hstart hpart

end Label

namespace Report

variable {verbose dryRun : Bool} {d : Diagnosis} {r : RuleResult} {f : Finding} {c : Category}
  {line : Label} {start : String}

/-! ## Items -/

/-- How an item with a mark begins. -/
def itemStart (mark : String) : String := "  " ++ Text.padRight 4 mark ++ " "

/-- The line is an item with a mark. -/
def hasMark (mark : String) (line : Label) : Bool := line.startsWith (itemStart mark)

/-- The line is an item for a finding. -/
def isFindingItem (line : Label) : Bool := hasMark "FAIL" line || hasMark "warn" line

/-- The line is an item. -/
def isItem (line : Label) : Bool := hasMark "ok" line || isFindingItem line

/-- The heading of a category. -/
def heading (c : Category) : Label := .text c.title

/-- The line is the heading of a known category. -/
def isHeading (line : Label) : Bool := decide (line ∈ Category.known.map heading)

/-- The item for a passed rule. -/
def passLine (r : RuleResult) : Label := .text ("  ok   " ++ Text.padRight idWidth r.rule ++ " pass")

/-- The items for what a rule comes to. -/
def items (r : RuleResult) : List Label :=
  if r.passed then [passLine r] else r.findings.map findingLine

/-- The heading of a category and its items; there is no heading without rules. -/
def entries (results : List RuleResult) (c : Category) : List Label :=
  match results.filter fun r => r.category = c with
  | [] => []
  | rs => heading c :: rs.flatMap items

theorem hasMark_passLine (r : RuleResult) : hasMark "ok" (passLine r) = true ∧
    hasMark "FAIL" (passLine r) = false ∧ hasMark "warn" (passLine r) = false := by
  have hline : passLine r = .text "  ok   " ++ .text (Text.padRight idWidth r.rule ++ " pass") := by
    rw [Label.text_append, ← String.append_assoc]
    rfl
  rw [hline]
  exact ⟨Label.startsWith_append _ _, Label.startsWith_append_of_apart (by decide) (by decide) _,
    Label.startsWith_append_of_apart (by decide) (by decide) _⟩

theorem mark_eq (s : Severity) : mark s = if s = .error then "FAIL" else "warn" := by
  cases s <;> rfl

theorem hasMark_findingLine (f : Finding) : hasMark "ok" (findingLine f) = false ∧
    hasMark "FAIL" (findingLine f) = decide (f.severity = .error) ∧
    hasMark "warn" (findingLine f) = !decide (f.severity = .error) := by
  have hline : findingLine f = .text ("  " ++ mark f.severity ++ " ") ++
      (.text (Text.padRight idWidth f.rule ++ " ") ++ f.message) := by
    rw [← Label.append_assoc, Label.text_append, ← String.append_assoc]
    rfl
  rw [hline, mark_eq]
  unfold hasMark
  by_cases herror : f.severity = .error
  · rw [if_pos herror, decide_eq_true herror]
    exact ⟨Label.startsWith_append_of_apart (by decide) (by decide) _, Label.startsWith_append _ _,
      Label.startsWith_append_of_apart (by decide) (by decide) _⟩
  · rw [if_neg herror, decide_eq_false herror]
    exact ⟨Label.startsWith_append_of_apart (by decide) (by decide) _,
      Label.startsWith_append_of_apart (by decide) (by decide) _, Label.startsWith_append _ _⟩

/-! ## The other lines -/

/-- The line is an item or a heading. -/
def isEntry (line : Label) : Bool := isItem line || isHeading line

/-- The line begins as no item and no heading does. -/
def isAside (start : String) : Bool :=
  (["ok", "FAIL", "warn"].map itemStart ++ Category.known.map Category.title).all fun part =>
    !Text.startsWith start part && !Text.startsWith part start

theorem isEntry_of_aside (h : isAside start = true) (rest : Label) :
    isEntry (.text start ++ rest) = false := by
  have hapart : ∀ part ∈ ["ok", "FAIL", "warn"].map itemStart ++ Category.known.map Category.title,
      Text.startsWith start part = false ∧ Text.startsWith part start = false := by
    simpa [isAside] using h
  obtain ⟨hitems, hheadings⟩ := List.forall_mem_append.mp hapart
  have hitem : ∀ mark ∈ ["ok", "FAIL", "warn"], hasMark mark (.text start ++ rest) = false :=
    fun mark hmark =>
      have ⟨h1, h2⟩ := hitems _ (List.mem_map_of_mem hmark)
      Label.startsWith_append_of_apart h1 h2 rest
  have hheading : isHeading (.text start ++ rest) = false := by
    refine decide_eq_false fun hmem => ?_
    obtain ⟨c, hc, heq⟩ := List.mem_map.mp hmem
    have hstart := Label.startsWith_append start rest
    rw [← heq] at hstart
    exact Bool.false_ne_true ((hheadings _ (List.mem_map_of_mem hc)).2.symm.trans hstart)
  simp [isEntry, isItem, isFindingItem, hitem, hheading]

theorem isEntry_of_asideText (h : isAside start = true) (rest : String) :
    isEntry (.text (start ++ rest)) = false := isEntry_of_aside h (.text rest)

theorem filter_header (p : Project) : (header p).filter isEntry = [] := by
  have hprojects : ∀ name, isEntry (.text "Project:    " ++ name) = false :=
    isEntry_of_aside (by decide)
  have htypes : ∀ name, isEntry (.text "Type:       " ++ name) = false := isEntry_of_aside (by decide)
  have hcounts : ∀ count, isEntry (.text ("Workspaces: " ++ count)) = false :=
    isEntry_of_asideText (by decide)
  have hfirst : isEntry (.text "repodoctor") = false ∧ isEntry (.text "") = false := by decide
  rw [List.filter_eq_nil_iff]
  unfold header
  split
  · split <;> simp [hprojects, htypes, hcounts, hfirst, String.append_assoc]
  · simp [hprojects, htypes, hfirst]

theorem isEntry_summary (d : Diagnosis) : ∀ line ∈ summary d, isEntry (.text line) = false := by
  have hscores : ∀ rest, isEntry (.text ("Score: " ++ rest)) = false := isEntry_of_asideText (by decide)
  have hcounts : ∀ rest, isEntry (.text ("Errors: " ++ rest)) = false := isEntry_of_asideText (by decide)
  have htimes : ∀ rest, isEntry (.text ("Completed in " ++ rest)) = false :=
    isEntry_of_asideText (by decide)
  simp [summary, hscores, hcounts, htimes, String.append_assoc]

theorem isEntry_fixes (dryRun : Bool) (d : Diagnosis) :
    ∀ line ∈ fixes dryRun d, isEntry (.text line) = false := by
  have hdry : ∀ rest, isEntry (.text ("Dry-run: " ++ rest)) = false := isEntry_of_asideText (by decide)
  have hfixed : ∀ rest, isEntry (.text ("Fixed " ++ rest)) = false := isEntry_of_asideText (by decide)
  have hhint : ∀ rest, isEntry (.text ("Run \x60repodoctor check --fix\x60 to auto-fix " ++ rest)) =
      false := isEntry_of_asideText (by decide)
  have hempty : isEntry (.text "") = false := by decide
  unfold fixes
  dsimp only
  split
  · split <;> simp [hdry, hfixed, hempty, String.append_assoc]
  · split <;> simp [hhint, hempty, String.append_assoc]

theorem filter_last (dryRun : Bool) (d : Diagnosis) :
    ((summary d ++ fixes dryRun d).map .text).filter isEntry = [] := by
  have hlast := List.forall_mem_append.mpr ⟨isEntry_summary d, isEntry_fixes dryRun d⟩
  refine List.filter_eq_nil_iff.mpr (List.forall_mem_map.mpr fun line hline => ?_)
  rw [hlast line hline]
  exact Bool.false_ne_true

/-! ## The lines of a category -/

theorem isEntry_of_item (h : isItem line = true) : isEntry line = true := by
  simp [isEntry, h]

theorem filter_resultLines (verbose : Bool) (r : RuleResult) :
    (resultLines verbose r).filter isEntry = items r := by
  have hplaces : ∀ rest, isEntry (.text ("       -> " ++ rest)) = false :=
    isEntry_of_asideText (by decide)
  have hhints : ∀ rest, isEntry (.text "       hint: " ++ rest) = false := isEntry_of_aside (by decide)
  have hdetails : ∀ f, (details f).filter isEntry = [] := by
    intro f
    rw [List.filter_eq_nil_iff]
    unfold details
    split <;> simp [hplaces, hhints]
  have hpass : isEntry (passLine r) = true := isEntry_of_item (by simp [isItem, hasMark_passLine])
  have hfinding : ∀ f, isEntry (findingLine f) = true := fun f => by
    refine isEntry_of_item ?_
    simp [isItem, isFindingItem, hasMark_findingLine]
  unfold resultLines items
  split
  · exact List.filter_cons_of_pos hpass
  · rw [List.filter_flatMap, List.map_eq_flatMap]
    refine List.flatMap_congr fun f _ => ?_
    rw [List.filter_cons_of_pos (hfinding f)]
    split
    · rw [hdetails]
    · rfl

/-- Of the lines of a known category its heading and its items are entries. -/
theorem filter_group (hc : c ∈ Category.known) (verbose : Bool) (results : List RuleResult) :
    (group verbose results c).filter isEntry = entries results c := by
  have htitle : isEntry (.text c.title) = true := by
    have hmem : .text c.title ∈ Category.known.map heading := List.mem_map_of_mem hc
    simp [isEntry, isHeading, hmem]
  have hrest : isEntry (.text underline) = false ∧ isEntry (.text "") = false := by decide
  unfold group entries
  cases results.filter fun r => r.category = c with
  | nil => rfl
  | cons r rest =>
    simp only [List.filter_append, List.filter_cons, List.filter_nil, htitle, hrest,
      List.filter_flatMap, filter_resultLines]
    simp [heading]

/-- The entries of a report, in order. -/
theorem filter_isEntry_lines : (lines verbose dryRun d).filter isEntry =
    Category.known.flatMap (entries d.results) := by
  unfold lines
  rw [List.filter_append, List.filter_append, filter_header, filter_last, List.nil_append,
    List.append_nil, List.filter_flatMap]
  exact List.flatMap_congr fun c hc => filter_group hc verbose d.results

/-- The items of a kind, in order. -/
theorem filter_lines {p : Label → Bool} (hp : ∀ line, p line = true → isItem line = true) :
    (lines verbose dryRun d).filter p = Category.known.flatMap fun c =>
      (d.results.filter fun r => r.category = c).flatMap fun r => (items r).filter p := by
  have hentry : ∀ line, p line = (p line && isEntry line) := by
    intro line
    cases hline : p line with
    | false => rfl
    | true => exact (isEntry_of_item (hp line hline)).symm
  have hheadings : ∀ c ∈ Category.known, p (heading c) = false := by
    have hnone : ∀ c ∈ Category.known, isItem (heading c) = false := by decide
    intro c hc
    refine Bool.eq_false_iff.mpr fun h => ?_
    have hitem := hp _ h
    rw [hnone c hc] at hitem
    cases hitem
  rw [List.filter_congr fun line _ => hentry line, ← List.filter_filter, filter_isEntry_lines,
    List.filter_flatMap]
  refine List.flatMap_congr fun c hc => ?_
  unfold entries
  split
  · rename_i hnone
    rw [hnone]
    rfl
  · rw [List.filter_cons_of_neg (by simp [hheadings c hc]), List.filter_flatMap]

/-! ## Results and findings -/

/-- The line with the score for the numbers of errors and warnings. -/
def scoreLine (grade : String) (errors warnings : Nat) : String :=
  "Score: " ++ Number.intText (max 0 (min 100 (100 - 5 * (errors : Int) - 2 * (warnings : Int)))) ++
    "/100 (" ++ grade ++ ")"

/-- The line with the numbers of errors, of warnings, of passed rules and of all rules. -/
def numbersLine (errors warnings passed all : Nat) : String :=
  "Errors: " ++ toString errors ++ " | Warnings: " ++ toString warnings ++ " | Passed: " ++
    toString passed ++ "/" ++ toString all

/-- The results tell all findings, rule by rule, in known categories, and the findings are scored. -/
structure Agreeing (d : Diagnosis) : Prop where
  passed : ∀ r ∈ d.results, r.passed = true ↔ r.findings = []
  category : ∀ r ∈ d.results, r.category ∈ Category.known
  findings : (d.results.flatMap (·.findings)).Perm d.findings
  score : d.score = Score.ofFindings d.findings

namespace Agreeing

/-- The items of a kind are those of all results. -/
theorem perm_items (h : Agreeing d) {p : Label → Bool} (hp : ∀ line, p line = true → isItem line = true) :
    ((lines verbose dryRun d).filter p).Perm (d.results.flatMap fun r => (items r).filter p) := by
  rw [filter_lines hp, ← List.flatMap_assoc]
  exact (List.perm_flatMap_filter (by decide) h.category).flatMap_right _

/-- There is one item for every finding. -/
theorem perm_findingItems (h : Agreeing d) :
    ((lines verbose dryRun d).filter isFindingItem).Perm (d.findings.map findingLine) := by
  have hitems : ∀ r ∈ d.results, (items r).filter isFindingItem = r.findings.map findingLine := by
    intro r hr
    unfold items
    split
    · rename_i hpassed
      simp [(h.passed r hr).mp hpassed, isFindingItem, hasMark_passLine]
    · refine List.filter_eq_self.mpr (List.forall_mem_map.mpr fun f _ => ?_)
      simp [isFindingItem, hasMark_findingLine]
  refine (h.perm_items fun line hline => by simp [isItem, hline]).trans ?_
  rw [List.flatMap_congr hitems, ← List.map_flatMap]
  exact h.findings.map _

/-- There is one item for every passed rule. -/
theorem perm_passItems (h : Agreeing d) : ((lines verbose dryRun d).filter (hasMark "ok")).Perm
    ((d.results.filter (·.passed)).map passLine) := by
  refine (h.perm_items fun line hline => by simp [isItem, hline]).trans (List.Perm.of_eq ?_)
  induction d.results with
  | nil => rfl
  | cons r rest ih =>
    rw [List.flatMap_cons, ih, List.filter_cons]
    unfold items
    cases r.passed with
    | true =>
      rw [if_pos rfl, if_pos rfl, List.filter_cons_of_pos (hasMark_passLine r).1]
      rfl
    | false =>
      rw [if_neg Bool.false_ne_true, if_neg Bool.false_ne_true, List.filter_eq_nil_iff.mpr]
      · rfl
      · exact List.forall_mem_map.mpr fun f _ => by simp [hasMark_findingLine]

/-- A mark of findings stands before as many items as there are findings that have it. -/
theorem length_filter_hasMark (h : Agreeing d) {word : String}
    (hword : ∀ line, hasMark word line = true → isFindingItem line = true) :
    ((lines verbose dryRun d).filter (hasMark word)).length =
      (d.findings.filter fun f => hasMark word (findingLine f)).length := by
  have hfindings : ∀ line, hasMark word line = (hasMark word line && isFindingItem line) := by
    intro line
    cases hline : hasMark word line with
    | false => rfl
    | true => exact (hword line hline).symm
  rw [List.filter_congr fun line _ => hfindings line, ← List.filter_filter,
    (h.perm_findingItems.filter _).length_eq, List.filter_map, List.length_map]
  rfl

theorem length_errors (h : Agreeing d) :
    ((lines verbose dryRun d).filter (hasMark "FAIL")).length = count .error d.findings := by
  rw [h.length_filter_hasMark fun line hline => by simp [isFindingItem, hline]]
  unfold count
  simp only [hasMark_findingLine]

theorem length_warnings (h : Agreeing d)
    (hseverity : ∀ f ∈ d.findings, f.severity = .error ∨ f.severity = .warning) :
    ((lines verbose dryRun d).filter (hasMark "warn")).length = count .warning d.findings := by
  rw [h.length_filter_hasMark fun line hline => by simp [isFindingItem, hline]]
  unfold count
  refine congrArg List.length (List.filter_congr fun f hf => ?_)
  rw [(hasMark_findingLine f).2.2]
  rcases hseverity f hf with herror | hwarning
  · rw [herror]
    rfl
  · rw [hwarning]
    rfl

/-- Where the score and the numbers stand. -/
theorem lines_eq (h : Agreeing d) : ∃ above below, lines verbose dryRun d = above ++
    [.text (scoreLine d.grade (count .error d.findings) (count .warning d.findings)),
      .text (numbersLine (count .error d.findings) (count .warning d.findings)
        (d.results.filter (·.passed)).length d.results.length)] ++ below := by
  refine ⟨header d.project ++ Category.known.flatMap (group verbose d.results),
    (("Completed in " ++ Number.intText d.duration ++ "ms") :: fixes dryRun d).map .text, ?_⟩
  have hscore : d.score = max 0 (min 100 (100 - 5 * (count .error d.findings : Int) -
      2 * (count .warning d.findings : Int))) := by
    rw [h.score, Score.ofFindings_eq]
    omega
  unfold lines summary scoreLine numbersLine
  rw [hscore, List.append_assoc _ [_, _]]
  rfl

end Agreeing

end Report

/-! ## Reports of runs -/

namespace Run

variable {given : Option (List Rule)} {t t' : Tree} {current : List String} {path : String}
  {o : Options} {d : Diagnosis}

theorem exists_visit_of_run (h : run given t current path o = (.ok d, t')) : ∃ v : Visit,
    v.Checks ∧ plan given t current path o = .ok v.plan ∧ d = v.diagnosis o := by
  obtain ⟨p, hplan, hd, -⟩ := run_eq_ok.mp h
  exact ⟨_, by simp [Visit.Checks, outcomes, Function.comp_def], hplan, hd⟩

/-- What checks by rules of known categories come to agrees with itself. -/
theorem agreeing_of_visit {v : Visit} (h : v.Checks)
    (hknown : ∀ rule ∈ v.plan.rules, rule.info.category ∈ Category.known) (o : Options) :
    Report.Agreeing (v.diagnosis o) where
  passed r hr := (mem_results hr).passed
  category r hr := by
    obtain ⟨first, hfirst, -, hcategory⟩ := (mem_results hr).described
    have hoccurs : first ∈ v.outcomes := (List.mem_filter.mp (List.mem_of_head? hfirst)).1
    have hpair : (first.root, first.rule) ∈ v.plan.pairs :=
      h ▸ List.mem_map_of_mem (f := fun o => (o.root, o.rule)) hoccurs
    rw [hcategory]
    exact hknown _ (mem_pairs_iff.mp hpair).2.1
  findings := perm_findings_results v.outcomes
  score := rfl

open Report in
/-- The report of a run that chooses from rules of known categories. Its items stand under the headings of the
categories, in their order. One item is for each finding, one for each passed rule, and there are no
others. The numbers of errors and warnings are those of the findings, and the score is theirs. They
count the items if every finding is an error or a warning. -/
theorem report_shows_findings (h : run given t current path o = (.ok d, t'))
    (hknown : ∀ rule ∈ given.getD Registry.builtIn, rule.info.category ∈ Category.known)
    (verbose dryRun : Bool) :
    (lines verbose dryRun d).filter isEntry = Category.known.flatMap (entries d.results) ∧
    ((lines verbose dryRun d).filter isFindingItem).Perm (d.findings.map findingLine) ∧
    ((lines verbose dryRun d).filter (hasMark "ok")).Perm
      ((d.results.filter (·.passed)).map passLine) ∧
    (d.results.map (·.rule)).Nodup ∧
    (∃ above below, lines verbose dryRun d = above ++
      [.text (scoreLine d.grade (count .error d.findings) (count .warning d.findings)),
        .text (numbersLine (count .error d.findings) (count .warning d.findings)
          (d.results.filter (·.passed)).length d.results.length)] ++ below) ∧
    ((lines verbose dryRun d).filter (hasMark "FAIL")).length = count .error d.findings ∧
    ((∀ f ∈ d.findings, f.severity = .error ∨ f.severity = .warning) →
      ((lines verbose dryRun d).filter (hasMark "warn")).length = count .warning d.findings) := by
  obtain ⟨v, hchecks, hplan, rfl⟩ := exists_visit_of_run h
  have hagreeing := agreeing_of_visit hchecks
    (fun rule hrule => hknown rule (mem_rules_of_plan hplan rule hrule)) o
  exact ⟨filter_isEntry_lines, hagreeing.perm_findingItems, hagreeing.perm_passItems,
    rules_results v.outcomes ▸ nodup_eraseDups _, hagreeing.lines_eq, hagreeing.length_errors,
    hagreeing.length_warnings⟩

/-- The report of a run that finds an error and two warnings. -/
theorem report_shows_findings_bareTree : ∃ d t', run none bareTree [] "/r" bareOptions = (.ok d, t') ∧
    ((Report.lines true false d).filter Report.isFindingItem).Perm
      (d.findings.map Report.findingLine) ∧
    ((Report.lines true false d).filter (Report.hasMark "FAIL")).length = 1 ∧
    ((Report.lines true false d).filter (Report.hasMark "warn")).length = 2 := by
  obtain ⟨d, t', hrun⟩ : ∃ d t', run none bareTree [] "/r" bareOptions = (.ok d, t') :=
    ⟨_, _, run_of_plan plan_bareTree⟩
  have hseverities : d.findings.map (·.severity) = [.error, .warning, .warning] := by
    obtain ⟨p, hplan, hd, -⟩ := run_eq_ok.mp hrun
    have hfindings : d.findings = findings (outcomes p bareTree) := congrArg Diagnosis.findings hd
    cases plan_bareTree.symm.trans hplan
    rw [hfindings]
    decide +kernel
  obtain ⟨-, hitems, -, -, -, herrors, hwarnings⟩ :=
    report_shows_findings hrun (by decide) true false
  refine ⟨d, t', hrun, hitems, herrors.trans ?_, (hwarnings fun f hf => ?_).trans ?_⟩
  · rw [← Score.count_severities, hseverities]
    rfl
  · have hmem : f.severity ∈ d.findings.map (·.severity) := List.mem_map_of_mem hf
    rw [hseverities] at hmem
    revert hmem
    generalize f.severity = severity
    simp
  · rw [← Score.count_severities, hseverities]
    rfl

end Run

end Checkup
