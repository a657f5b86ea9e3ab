import Checkup.Proofs.Markup.Anchors
import Checkup.Proofs.Rule.Exports
import Checkup.Proofs.Scan.Files
import Checkup.Proofs.Tree.Writing
import Checkup.Rule.Application

/-!
# Links that are reported

An anchor is to be reported if its own link leads to a path in the site. A line is reported exactly if
it has such an anchor, or an anchor that is misread: a link of its own that names a host, another
attribute whose name ends in that of links, or a text that looks like a link in a value, in a comment or
behind what is no tag. So where no anchor is misread, no line is reported whose links all lead elsewhere.

* `mem_check_iff`: what is reported.
* `reports_iff`: which lines are reported.
* `reported_links`: what is said of links.
* `external_links_reported`: lines that are reported although all links on them lead elsewhere.
-/

namespace Checkup

namespace Application

variable {c : Context} {t : Tree} {path : String} {number : Nat} {line : List Char} {f : Finding}

theorem mem_forFiles_iff {p : Pattern} {report : String → String → List Finding} :
    f ∈ forFiles p report c t ↔ ∃ path ∈ c.findFiles t p, ∃ text,
      c.readNonempty? t path = some text ∧ f ∈ report path text := by
  rw [forFiles, List.mem_flatMap]
  refine exists_congr fun path => and_congr_right fun _ => ?_
  cases c.readNonempty? t path with
  | none => simp
  | some text => simp

theorem mem_forLines_iff {text : String} {report : Nat → List Char → List Finding} :
    f ∈ forLines text report ↔ ∃ number line, (number, line) ∈ Text.numberedLines text.toList ∧
      f ∈ report number line := by
  rw [forLines, List.mem_flatMap, Prod.exists]

namespace LinkComponent

open Pattern (isQuote)
open Markup (Anchor Attribute FirstLink Misread HasInternalLink HasOpenLink partAfter pathOf isHref
  isInternal)

/-- A line of a markup file that is read, with its number from one. -/
def LineOf (c : Context) (t : Tree) (path : String) (number : Nat) (line : List Char) : Prop :=
  path ∈ c.findFiles t .markupFiles ∧ ∃ text i, c.readNonempty? t path = some text ∧
    (Text.splitLines text.toList)[i]? = some line ∧ number = i + 1

/-- A line of a file is reported. -/
def ReportsLine (c : Context) (t : Tree) (path : String) (number : Nat) : Prop :=
  ∃ f ∈ check c t, f.file = path ∧ f.line = some (number : Int)

/-- What is said about a link. -/
def message (target : List Char) : String :=
  "Uses <a> for internal link \"" ++ String.ofList target ++ "\" instead of next/link"

theorem LineOf.unique {line' : List Char} (h : LineOf c t path number line)
    (h' : LineOf c t path number line') : line = line' := by
  obtain ⟨-, text, i, htext, hline, rfl⟩ := h
  obtain ⟨-, text', j, htext', hline', hnumber⟩ := h'
  obtain rfl : i = j := Nat.succ_inj.mp hnumber
  rw [htext, Option.some_inj] at htext'
  subst htext'
  exact Option.some.inj (hline.symm.trans hline')

/-- What is reported about a line. -/
def onLine (path : String) (number : Nat) (line : List Char) : List Finding :=
  match Pattern.internalAnchor.firstKept? line with
  | none => []
  | some target =>
    if isExempt line then [] else [(info.finding path (message target)).atLine number]

theorem check_eq : check c t =
    forFiles .markupFiles (fun path text => forLines text (onLine path)) c t := rfl

theorem mem_onLine_iff : f ∈ onLine path number line ↔ isExempt line = false ∧
    ∃ tag front rest, FirstLink line tag front rest ∧
      f = (info.finding path (message (pathOf rest))).atLine number := by
  unfold onLine
  cases hkept : Pattern.internalAnchor.firstKept? line with
  | none =>
    refine iff_of_false List.not_mem_nil ?_
    rintro ⟨-, tag, front, rest, hfirst, -⟩
    rw [Markup.firstKept?_internalAnchor.mpr ⟨tag, front, rest, hfirst, rfl⟩] at hkept
    cases hkept
  | some target =>
    obtain ⟨tag, front, rest, hfirst, rfl⟩ := Markup.firstKept?_internalAnchor.mp hkept
    cases isExempt line with
    | true => simp
    | false =>
      simp only [Bool.false_eq_true, if_false, List.mem_singleton, true_and]
      constructor
      · rintro rfl
        exact ⟨tag, front, rest, hfirst, rfl⟩
      · rintro ⟨tag', front', rest', hfirst', rfl⟩
        rw [hfirst.unique hfirst']

theorem mem_check_iff_onLine : f ∈ check c t ↔
    ∃ path number line, LineOf c t path number line ∧ f ∈ onLine path number line := by
  rw [check_eq, mem_forFiles_iff]
  constructor
  · rintro ⟨path, hpath, text, htext, hf⟩
    obtain ⟨number, line, hline, hf⟩ := mem_forLines_iff.mp hf
    obtain ⟨i, hi, hnumber⟩ := Text.mem_numberedLines.mp hline
    exact ⟨path, number, line, ⟨hpath, text, i, htext, hi, hnumber⟩, hf⟩
  · rintro ⟨path, number, line, ⟨hpath, text, i, htext, hi, hnumber⟩, hf⟩
    have hline := Text.mem_numberedLines.mpr ⟨i, hi, hnumber⟩
    exact ⟨path, hpath, text, htext, mem_forLines_iff.mpr ⟨number, line, hline, hf⟩⟩

/-- What is reported: the first link on a line that is not exempt. -/
theorem mem_check_iff : f ∈ check c t ↔ ∃ path number line tag front rest,
    LineOf c t path number line ∧ isExempt line = false ∧ FirstLink line tag front rest ∧
      f = (info.finding path (message (pathOf rest))).atLine number := by
  simp only [mem_check_iff_onLine, mem_onLine_iff, exists_and_left]

/-- A line is reported if a link in an anchor on it leads to a path in the site, or is misread. -/
theorem reports_iff (whole : List Char → Bool) : ReportsLine c t path number ↔
    ∃ line, LineOf c t path number line ∧ isExempt line = false ∧
      ∃ tag, Anchor line tag ∧ (HasOpenLink whole tag ∨ Misread whole tag) := by
  have hlink : ∀ line, (∃ tag, Anchor line tag ∧ (HasOpenLink whole tag ∨ Misread whole tag)) ↔
      ∃ tag front rest, FirstLink line tag front rest := by
    intro line
    simp only [Markup.exists_firstLink_iff, Markup.exists_pathAt_iff whole]
  simp only [hlink]
  constructor
  · rintro ⟨f, hf, rfl, hnumber⟩
    obtain ⟨path, number', line, tag, front, rest, hline, hexempt, hfirst, rfl⟩ := mem_check_iff.mp hf
    obtain rfl : number' = number := Int.ofNat.inj (Option.some.inj hnumber)
    exact ⟨line, hline, hexempt, tag, front, rest, hfirst⟩
  · rintro ⟨line, hline, hexempt, tag, front, rest, hfirst⟩
    exact ⟨_, mem_check_iff.mpr ⟨path, number, line, tag, front, rest, hline, hexempt, hfirst, rfl⟩,
      rfl, rfl⟩

/-- What is said of links. A finding is about the first link to a path that can be read in the anchors of
a line, and quotes its path. A line is reported if such a link is one of an anchor on it to a path in the
site, or is misread. So if no anchor on a line is misread, the line is reported only for an anchor with a
link of its own to a path in the site, and it is not reported if all links on it lead elsewhere. -/
theorem reported_links (whole : List Char → Bool) (c : Context) (t : Tree) :
    (∀ f, f ∈ check c t ↔ ∃ path number line tag front rest, LineOf c t path number line ∧
      isExempt line = false ∧ FirstLink line tag front rest ∧
        f = (info.finding path (message (pathOf rest))).atLine number) ∧
    (∀ path number, ReportsLine c t path number ↔ ∃ line, LineOf c t path number line ∧
      isExempt line = false ∧ ∃ tag, Anchor line tag ∧ (HasOpenLink whole tag ∨ Misread whole tag)) ∧
    ∀ path number line, LineOf c t path number line →
      (∀ tag, Anchor line tag → ¬ Misread whole tag) →
        (ReportsLine c t path number → ∃ tag, Anchor line tag ∧ HasInternalLink whole tag) ∧
        ((∀ tag front name value, Anchor line tag → Attribute whole tag front name value →
          isHref name = true → isInternal value = false) → ¬ ReportsLine c t path number) := by
  refine ⟨fun f => mem_check_iff, fun path number => reports_iff whole, ?_⟩
  intro path number line hline hread
  have hinternal : ReportsLine c t path number → ∃ tag, Anchor line tag ∧ HasInternalLink whole tag := by
    intro hreports
    obtain ⟨line', hline', -, tag, hanchor, hlink⟩ := (reports_iff whole).mp hreports
    obtain rfl := hline.unique hline'
    rcases hlink with ⟨front, name, value, hattribute, hname, hvalue, -⟩ | hmisread
    · exact ⟨tag, hanchor, front, name, value, hattribute, hname, hvalue⟩
    · exact absurd hmisread (hread tag hanchor)
  refine ⟨hinternal, fun helsewhere hreports => ?_⟩
  obtain ⟨tag, hanchor, front, name, value, hattribute, hname, hvalue⟩ := hinternal hreports
  rw [helsewhere tag front name value hanchor hattribute hname] at hvalue
  cases hvalue

/-! ## Links on three lines -/

/-- A line with a link to a path in the site. -/
def aboutLine : List Char := "<a href=\"/about\">About</a>".toList

/-- A line with a link to another host. -/
def hostLine : List Char := "<a href=\"//example.com\">Out</a>".toList

/-- A line with a link to another host, and a path in an attribute of another name. -/
def dataLine : List Char := "<a data-href=\"/x\" href=\"https://example.com\">Out</a>".toList

/-- The text with the three lines. -/
def linksText : String :=
  String.ofList (aboutLine ++ '\n' :: (hostLine ++ '\n' :: (dataLine ++ ['\n'])))

/-- A folder with a file of this text. -/
def linksTree : Tree := ⟨[(["r"], .folder), (["r", "a.tsx"], .file linksText.toUTF8)]⟩

/-- The root, seen as a scan root. -/
def linksContext : Context :=
  .forRoot ["r"] { (default : Project) with kind := .frameworkApp } false "" []

theorem findFiles_linksTree : linksContext.findFiles linksTree .markupFiles = ["a.tsx"] := by
  have hroot : linksContext.root = ["r"] := by decide +kernel
  have hnames : Context.namesIn linksTree ["r"] = ["a.tsx"] := by
    rw [Context.namesIn_of_sorted (l := ["r"]) (by decide +kernel) (by decide +kernel)]
    decide +kernel
  rw [Context.findFiles_eq_flatMap, hroot, hnames]
  decide +kernel

theorem readNonempty?_linksTree : linksContext.readNonempty? linksTree "a.tsx" = some linksText := by
  have hlocate : linksContext.locate linksTree "a.tsx" = .ok ["r", "a.tsx"] := by decide
  have hbytes : linksTree.readBytes ["r", "a.tsx"] = .ok linksText.toUTF8 := rfl
  have hreturn : '\r' ∉ linksText.toList := by
    rw [linksText, String.toList_ofList]
    decide
  have hne : linksText ≠ "" := by
    rw [linksText, Ne, String.ofList_eq_empty_iff]
    exact nofun
  have hread : linksContext.readText? linksTree "a.tsx" = some linksText := by
    rw [Context.readText?, hlocate]
    dsimp only
    rw [Tree.readText, hbytes, Except.bind, Tree.decodeText_toUTF8 hreturn]
    rfl
  simp [Context.readNonempty?, hread, hne]

theorem lineOf_linksTree : LineOf linksContext linksTree "a.tsx" 1 aboutLine ∧
    LineOf linksContext linksTree "a.tsx" 2 hostLine ∧
      LineOf linksContext linksTree "a.tsx" 3 dataLine := by
  have hfound : "a.tsx" ∈ linksContext.findFiles linksTree .markupFiles := by simp [findFiles_linksTree]
  have hlines : Text.splitLines linksText.toList = [aboutLine, hostLine, dataLine] := by
    rw [linksText, String.toList_ofList]
    decide
  have hline : ∀ i line, [aboutLine, hostLine, dataLine][i]? = some line →
      LineOf linksContext linksTree "a.tsx" (i + 1) line :=
    fun i line h => ⟨hfound, linksText, i, readNonempty?_linksTree, hlines ▸ h, rfl⟩
  exact ⟨hline 0 _ rfl, hline 1 _ rfl, hline 2 _ rfl⟩

theorem reports_linksTree (target : List Char) (hline : LineOf linksContext linksTree "a.tsx" number line)
    (h : (info.finding "a.tsx" (message target)).atLine number ∈ onLine "a.tsx" number line) :
    ReportsLine linksContext linksTree "a.tsx" number :=
  ⟨_, mem_check_iff_onLine.mpr ⟨_, _, _, hline, h⟩, rfl, rfl⟩

/-- The text begins with an equals sign and a value of a class in quotation marks. -/
def opens (accepts : List Char → Bool) : List Char → Bool
  | '=' :: mark :: rest => isQuote mark && accepts (rest.takeWhile (· != mark))
  | _ => false

section Opening

variable {whole accepts : List Char → Bool} {tag front href part rest : List Char}

theorem exists_opens (h : HasInternalLink whole tag) : ∃ front href rest, tag = front ++ (href ++ rest) ∧
    href.length = 4 ∧ opens isInternal rest = true ∧ partAfter whole front = .gap false := by
  obtain ⟨front, href, value, hattribute, hname, hvalue⟩ := h
  obtain ⟨mark, rest, rfl, hmark, rfl⟩ := hattribute.stands
  obtain ⟨_, _, _, _, rfl, -⟩ := Markup.isHref_iff.mp hname
  refine ⟨front, _, _, rfl, rfl, ?_, hattribute.begins⟩
  rw [opens, hmark, hvalue]
  rfl

theorem mem_tails_of_anchor (hanchor : Anchor line tag) (htag : tag = front ++ (href ++ rest)) :
    rest ∈ line.tails := by
  obtain ⟨above, name, space, rfl, -⟩ := hanchor
  rw [List.mem_tails, htag]
  exact ⟨above ++ '<' :: name :: space :: (front ++ href), by simp⟩

/-- What stands before the only value of a class in a tag. -/
theorem front_eq_of_opens (hanchor : Anchor line tag) (htag : tag = front ++ (href ++ rest))
    (hlength : href.length = 4) (hopens : opens accepts rest = true)
    (honly : ∀ s ∈ line.tails, opens accepts s = true →
      line = '<' :: 'a' :: ' ' :: (part ++ ['h', 'r', 'e', 'f']) ++ s)
    (hpart : '<' ∉ part) : front = part := by
  have hline := honly rest (mem_tails_of_anchor hanchor htag) hopens
  obtain ⟨above, name, space, hsplit, -⟩ := hanchor
  have hwhole : line = above ++ '<' :: name :: space :: (front ++ href) ++ rest := by simp [hsplit, htag]
  have hfront := List.append_cancel_right (hwhole.symm.trans hline)
  cases above with
  | nil =>
    have hname := (List.cons.inj (List.cons.inj (List.cons.inj hfront).2).2).2
    exact List.append_inj_left' hname hlength
  | cons first above =>
    have hmem : '<' ∈ 'a' :: ' ' :: (part ++ ['h', 'r', 'e', 'f']) := by
      rw [← (List.cons.inj hfront).2]
      simp
    simp [hpart] at hmem

end Opening

theorem not_misread_aboutLine (whole : List Char → Bool) {tag : List Char} (h : Anchor aboutLine tag) :
    ¬ Misread whole tag := by
  rw [Markup.misread_iff]
  rintro ⟨front, rest, hpath, hhead⟩
  obtain ⟨href, mark, htag, hname, hmark⟩ := hpath.stands
  have hopens : opens Markup.isPath ('=' :: mark :: '/' :: rest) = true := by
    rw [opens, hmark, (Markup.isPath_takeWhile_iff hmark).mpr ⟨rest, rfl⟩]
    rfl
  obtain ⟨_, _, _, _, rfl, -⟩ := Markup.isHref_iff.mp hname
  obtain rfl : front = [] := front_eq_of_opens h htag rfl hopens (by decide) List.not_mem_nil
  have honce : ∀ s ∈ aboutLine.tails, opens Markup.isPath s = true → s[3]? ≠ some '/' := by decide
  refine honce _ (mem_tails_of_anchor h htag) hopens ?_
  rw [← hhead rfl]
  cases rest <;> rfl

theorem not_hasInternalLink_hostLine (whole : List Char → Bool) {tag : List Char}
    (h : Anchor hostLine tag) : ¬ HasInternalLink whole tag := by
  intro hlink
  obtain ⟨front, href, rest, htag, -, hopens, -⟩ := exists_opens hlink
  have hnone : ∀ s ∈ hostLine.tails, opens isInternal s = false := by decide
  rw [hnone rest (mem_tails_of_anchor h htag)] at hopens
  cases hopens

theorem not_hasInternalLink_dataLine (whole : List Char → Bool) {tag : List Char}
    (h : Anchor dataLine tag) : ¬ HasInternalLink whole tag := by
  intro hlink
  obtain ⟨front, href, rest, htag, hlength, hopens, hgap⟩ := exists_opens hlink
  obtain rfl : front = ['d', 'a', 't', 'a', '-'] :=
    front_eq_of_opens h htag hlength hopens (by decide) (by decide)
  cases hgap

/-- On the first line the anchor is read rightly: it is reported for its link. -/
theorem reported_links_aboutLine : LineOf linksContext linksTree "a.tsx" 1 aboutLine ∧
    (∀ tag, Anchor aboutLine tag → ¬ Misread (fun _ => false) tag) ∧
      ReportsLine linksContext linksTree "a.tsx" 1 ∧
        ∃ tag, Anchor aboutLine tag ∧ HasInternalLink (fun _ => false) tag := by
  obtain ⟨hline, -, -⟩ := lineOf_linksTree
  have hread : ∀ tag, Anchor aboutLine tag → ¬ Misread (fun _ => false) tag :=
    fun tag => not_misread_aboutLine _
  have hreports := reports_linksTree "/about".toList hline (by decide)
  have hlinks := reported_links (fun _ => false) linksContext linksTree
  exact ⟨hline, hread, hreports, (hlinks.2.2 "a.tsx" 1 aboutLine hline hread).1 hreports⟩

/-- On neither of the other lines an anchor has a link of its own to a path in the site, however its tag
is read, and both are reported. -/
theorem external_links_reported :
    (LineOf linksContext linksTree "a.tsx" 2 hostLine ∧ ReportsLine linksContext linksTree "a.tsx" 2 ∧
      ∀ whole tag, Anchor hostLine tag → ¬ HasInternalLink whole tag) ∧
    LineOf linksContext linksTree "a.tsx" 3 dataLine ∧ ReportsLine linksContext linksTree "a.tsx" 3 ∧
      ∀ whole tag, Anchor dataLine tag → ¬ HasInternalLink whole tag := by
  obtain ⟨-, hhost, hdata⟩ := lineOf_linksTree
  refine ⟨⟨hhost, reports_linksTree "//example.com".toList hhost (by decide), ?_⟩,
    hdata, reports_linksTree "/x".toList hdata (by decide), ?_⟩
  · exact fun whole _ => not_hasInternalLink_hostLine whole
  · exact fun whole _ => not_hasInternalLink_dataLine whole

end LinkComponent

end Application

end Checkup
