import Checkup.Proofs.Repair.Complaints
import Checkup.Proofs.Scan.Sandbox
import Checkup.Proofs.Tree.LinkedWriting

/-!
# What becomes of a file of ignored paths

A file of ignored paths that can be read keeps its text, and the entries that it lacks follow on lines
of their own. A file that is no text counts as none: the repair writes all entries in its place, and what
stood there is lost.

* `Completes`: a text with lines added for entries that it lacks.
* `ignored_paths_repaired`: what a repair writes to a file that is there.
* `lost_binaryTree`: a file that is lost.
-/

namespace Checkup

open Hygiene (GitIgnore.Entry GitIgnore.lines GitIgnore.extend GitIgnore.check GitIgnore.fix)
open Amendment (missing required wanted)

variable {c : Context} {t : Tree} {f : Finding}

/-- A text is another one with lines added behind it, at most a newline between them. Every line is an
entry that the other text lacks. -/
def Completes (kind : Kind) (old new : String) : Prop :=
  ∃ separator ∈ ["", "\n"], ∃ entries : List GitIgnore.Entry,
    (∀ e ∈ entries, e ∈ missing kind old) ∧ new = old ++ separator ++ GitIgnore.lines entries

/-! ## Texts that are completed -/

theorem completes_extend (kind : Kind) (message : Label) (old : String) :
    Completes kind old (GitIgnore.extend old (wanted kind message old)) := by
  refine ⟨if Text.endsWith old.toList ['\n'] then "" else "\n", ?_, wanted kind message old,
    fun e he => (List.mem_filter.mp he).1, rfl⟩
  split
  · decide
  · decide

theorem completes_empty (kind : Kind) : Completes kind "" (GitIgnore.lines (required kind)) := by
  refine ⟨"", by decide, required kind, fun e he => Amendment.mem_missing.mpr ⟨he, ?_⟩, ?_⟩
  · rw [Bool.eq_false_iff, ne_eq, Text.contains_iff]
    exact fun hinfix => (Amendment.pattern_apart he).2.1 (List.infix_nil.mp hinfix)
  · rw [String.append_empty, String.empty_append]

/-! ## Files that are repaired -/

/-- A finding on ignored paths complains of the text that is read. -/
theorem lacks_of_check (hf : f ∈ GitIgnore.check c t) :
    Lacks c.project.kind (c.readText? t ".gitignore") f.message := by
  obtain ⟨-, ⟨hnone, rfl⟩ | ⟨text, htext, e, he, rfl⟩⟩ := mem_ignore_iff.mp hf
  · exact .all hnone
  · exact .one htext he

/-- The repair of a file of ignored paths that is there, whatever its bytes, keeps its text and adds
lines for entries that it lacks, if the bytes are a text. Otherwise it writes all required entries in
their place. -/
theorem ignored_paths_repaired {k : Location} {bytes : ByteArray}
    (hfile : c.access t ".gitignore" = .ok (k, .file bytes)) (hf : f ∈ GitIgnore.check c t) :
    ∃ new, GitIgnore.fix c t f = (.ok true, t.put k (.file new.toUTF8)) ∧
      Tree.decodeText new.toUTF8 = .ok new ∧
      (∀ old, Tree.decodeText bytes = .ok old → Completes c.project.kind old new) ∧
      ∀ fault, Tree.decodeText bytes = .error fault →
        new = GitIgnore.lines (required c.project.kind) := by
  obtain ⟨l, hlocate, hplain, haccess⟩ := Context.access_eq_ok hfile
  have hread : c.readText? t ".gitignore" = (Tree.decodeText bytes).toOption := by
    unfold Context.readText? Tree.readText Tree.readBytes
    rw [hlocate]
    dsimp only
    rw [haccess]
    rfl
  have hcomplaint := Complains.ignored (lacks_of_check hf)
  obtain ⟨new, hnew⟩ := Option.ne_none_iff_exists'.mp hcomplaint.isSome_apply
  rw [hread] at hnew
  have hreturn : ∀ old, (Tree.decodeText bytes).toOption = some old → '\r' ∉ old.toList := by
    intro old hold
    cases hdecode : Tree.decodeText bytes with
    | error fault =>
      rw [hdecode] at hold
      cases hold
    | ok text =>
      rw [hdecode] at hold
      cases hold
      exact Tree.not_return_decodeText hdecode
  refine ⟨new, ?_, Tree.decodeText_toUTF8 (Amendment.not_return_apply hreturn hnew), ?_, ?_⟩
  · rw [fix_ignore]
    unfold Context.rewrite Context.writeText
    rw [hread, if_neg (Amendment.not_refuses hnew), hnew, hlocate]
    dsimp only
    rw [Tree.writeText_of_access hplain haccess]
    rfl
  · intro old hold
    rw [hold] at hnew
    rcases Amendment.ignore_cases hnew with ⟨hnone, rfl⟩ | ⟨old', hold', rfl⟩
    · have hempty : old = "" := by
        by_contra hne
        have hsome : (some old).filter (· != "") = some old :=
          Amendment.filter_eq_some.mpr ⟨rfl, hne⟩
        have hnone' : (some old).filter (· != "") = none := hnone
        rw [hnone'] at hsome
        cases hsome
      rw [hempty]
      exact completes_empty c.project.kind
    · obtain ⟨heq, -⟩ := Amendment.filter_eq_some.mp hold'
      cases heq
      exact completes_extend c.project.kind f.message old
  · intro fault hfault
    rw [hfault] at hnew
    rcases Amendment.ignore_cases hnew with ⟨-, rfl⟩ | ⟨old, hold, -⟩
    · rfl
    · cases hold

/-! ## Two files -/

/-- A project whose file of ignored paths names `dist`. -/
def linesTree : Tree := ⟨[(["r"], .folder), (["r", ".gitignore"], .file "dist".toUTF8)]⟩

/-- A project whose file of ignored paths names `dist` with a byte behind it that no text has. -/
def binaryTree : Tree :=
  ⟨[(["r"], .folder), (["r", ".gitignore"], .file ⟨#[0x64, 0x69, 0x73, 0x74, 0xff]⟩)]⟩

/-- The context of the project. -/
def ignoredContext : Context :=
  .forRoot ["r"] ⟨.generic, "r", "/r", .unknown, false, false, none, none, none, none, none⟩ false "" []

/-- A newline and a missing entry follow. -/
theorem ignored_paths_repaired_linesTree : ∃ new,
    GitIgnore.fix ignoredContext linesTree (lacking ⟨".env", ".env files"⟩) =
      (.ok true, linesTree.put ["r", ".gitignore"] (.file new.toUTF8)) ∧
    Completes .generic "dist" new := by
  have hfile : ignoredContext.access linesTree ".gitignore" =
      .ok (["r", ".gitignore"], .file "dist".toUTF8) := by decide +kernel
  have hf : lacking ⟨".env", ".env files"⟩ ∈ GitIgnore.check ignoredContext linesTree := by
    decide +kernel
  obtain ⟨new, hfix, -, hcompletes, -⟩ := ignored_paths_repaired hfile hf
  exact ⟨new, hfix, hcompletes "dist" (by decide +kernel)⟩

/-- The file is reported as missing, and nothing is left of it. -/
theorem lost_binaryTree : absent ∈ GitIgnore.check ignoredContext binaryTree ∧
    GitIgnore.fix ignoredContext binaryTree absent =
      (.ok true, binaryTree.put ["r", ".gitignore"] (.file "node_modules\n.env\n".toUTF8)) ∧
    ¬ [0x64, 0x69, 0x73, 0x74, 0xff] <+: "node_modules\n.env\n".toUTF8.toList := by
  refine ⟨by decide +kernel, by decide +kernel, by decide +kernel⟩

end Checkup
