import Checkup.Proofs.Repair.Amendment

/-!
# Findings that can be repaired

When a rule with a repair reports a finding, and which one. All of them say that they can be
repaired.

* `mem_strict_iff`, `mem_engine_iff`, `mem_ignore_iff`, `mem_protocol_iff`, `mem_directive_iff`: the
  findings of the rules.
-/

namespace Checkup

open Hygiene Monorepo Application

variable {c : Context} {t : Tree} {f : Finding}

/-- The settings say something about the strict option. -/
def saysStrict (settings : Json.Members) : Bool :=
  ((StrictTyping.options? settings).bind (·.get? StrictTyping.optionName)).any Json.isGiven

theorem saysStrict_of_isStrict {settings : Json.Members}
    (h : Hygiene.StrictTyping.isStrict settings = true) : saysStrict settings = true := by
  unfold Hygiene.StrictTyping.isStrict at h
  unfold saysStrict
  split at h
  · rename_i hoption
    rw [hoption]
    rfl
  · cases h

theorem mem_strict_iff : f ∈ StrictTyping.check c t ↔ c.project.usesStaticTyping = true ∧
    (∃ settings, c.readMembers? t "tsconfig.json" = some settings ∧ saysStrict settings = false) ∧
    f = (StrictTyping.info.finding "tsconfig.json" "TypeScript strict mode is disabled").asFixable := by
  unfold StrictTyping.check StrictTyping.fileName
  cases c.project.usesStaticTyping with
  | false => exact iff_of_false (fun h => List.not_mem_nil (Except.mem_ok_iff.mp h)) fun h => by cases h.1
  | true =>
    rw [Bool.not_true, if_neg Bool.false_ne_true, Rule.mem_findingsIn_iff]
    have hfound : ∀ settings, f ∈ StrictTyping.findings settings ↔ saysStrict settings = false ∧
        f = (StrictTyping.info.finding "tsconfig.json"
          "TypeScript strict mode is disabled").asFixable := by
      intro settings
      have hsilent : ((StrictTyping.options? settings).bind (·.get? StrictTyping.optionName)).any
        Json.isGiven = saysStrict settings := rfl
      unfold StrictTyping.findings
      rw [hsilent]
      cases saysStrict settings <;> simp [StrictTyping.fileName]
    simp only [hfound, true_and]
    exact ⟨fun ⟨settings, hread, hs, hf⟩ => ⟨⟨settings, hread, hs⟩, hf⟩,
      fun ⟨⟨settings, hread, hs⟩, hf⟩ => ⟨settings, hread, hs, hf⟩⟩

theorem mem_engine_iff : f ∈ EngineVersion.check c t ↔
    (∃ manifest, c.readMembers? t "package.json" = some manifest ∧
      EngineVersion.isStated manifest = false) ∧
    f = (EngineVersion.info.finding "package.json" "Missing engines.node field").asFixable := by
  unfold EngineVersion.check Manifest.fileName
  rw [Rule.mem_findingsIn_iff]
  have hfound : ∀ manifest, f ∈ EngineVersion.findings manifest ↔
      EngineVersion.isStated manifest = false ∧
        f = (EngineVersion.info.finding "package.json" "Missing engines.node field").asFixable := by
    intro manifest
    unfold EngineVersion.findings
    cases EngineVersion.isStated manifest <;> simp [Manifest.fileName]
  simp only [hfound]
  exact ⟨fun ⟨manifest, hread, hs, hf⟩ => ⟨⟨manifest, hread, hs⟩, hf⟩,
    fun ⟨⟨manifest, hread, hs⟩, hf⟩ => ⟨manifest, hread, hs, hf⟩⟩

/-- What is said of an entry that is missing in the file of ignored paths. -/
def lacking (e : GitIgnore.Entry) : Finding :=
  (GitIgnore.info.finding ".gitignore" (GitIgnore.complaint e ++ " in .gitignore")).asFixable

/-- What is said where there is no file of ignored paths. -/
def absent : Finding := (GitIgnore.info.finding ".gitignore" "No .gitignore file found").asFixable

theorem mem_ignore_iff : f ∈ GitIgnore.check c t ↔ c.isWorkspace = false ∧
    ((c.readNonempty? t ".gitignore" = none ∧ f = absent) ∨
      ∃ text, c.readNonempty? t ".gitignore" = some text ∧
        ∃ e ∈ Amendment.missing c.project.kind text, f = lacking e) := by
  unfold GitIgnore.check GitIgnore.fileName
  cases c.isWorkspace with
  | true => exact iff_of_false List.not_mem_nil fun h => by cases h.1
  | false =>
    rw [if_neg Bool.false_ne_true]
    cases c.readNonempty? t ".gitignore" with
    | none =>
      dsimp only
      rw [List.mem_singleton]
      constructor
      · rintro rfl
        exact ⟨rfl, .inl ⟨rfl, rfl⟩⟩
      · rintro ⟨-, ⟨-, hf⟩ | ⟨text, htext, -⟩⟩
        · exact hf
        · cases htext
    | some text =>
      dsimp only
      have hmissing : GitIgnore.missing c.project text = Amendment.missing c.project.kind text := rfl
      rw [hmissing, List.mem_map]
      constructor
      · rintro ⟨e, he, rfl⟩
        exact ⟨rfl, .inr ⟨text, rfl, e, he, rfl⟩⟩
      · rintro ⟨-, ⟨hnone, -⟩ | ⟨found, htext, e, he, rfl⟩⟩
        · cases hnone
        · cases htext
          exact ⟨e, he, rfl⟩

/-- What is said of a workspace's dependency with a version. -/
def plainDependency (w : Workspace) (dependency version : Label) : Finding :=
  (WorkspaceProtocol.info.remark (fileIn w "package.json")
    (WorkspaceProtocol.message dependency version)).asFixable

theorem mem_protocol_findings_iff {manifest : Json.Members} {path : String} :
    f ∈ WorkspaceProtocol.findings c path manifest ↔ ∃ dependency value version,
      (dependency, value) ∈ Manifest.dependencies manifest ∧
      WorkspaceProtocol.plainVersion? value = some version ∧
      (WorkspaceProtocol.names c).contains dependency = true ∧
      f = (WorkspaceProtocol.info.remark path
        (WorkspaceProtocol.message dependency version)).asFixable := by
  unfold WorkspaceProtocol.findings
  rw [List.mem_flatMap]
  constructor
  · rintro ⟨⟨dependency, value⟩, hmem, hf⟩
    dsimp only at hf
    split at hf
    · rename_i version hversion
      split at hf
      · rename_i hnames
        exact ⟨dependency, value, version, hmem, hversion, hnames, List.mem_singleton.mp hf⟩
      · cases hf
    · cases hf
  · rintro ⟨dependency, value, version, hmem, hversion, hnames, rfl⟩
    refine ⟨_, hmem, ?_⟩
    dsimp only
    rw [hversion]
    dsimp only
    rw [if_pos hnames]
    exact List.mem_singleton_self _

/-- A manifest that is nested too deep leaves the rule without any findings. -/
theorem mem_protocol_iff : f ∈ WorkspaceProtocol.check c t ↔
    (∀ w ∈ workspaces c, ¬ c.IsTooDeep t (fileIn w "package.json")) ∧
    ∃ w ∈ workspaces c, ∃ manifest,
      c.readMembers? t (fileIn w "package.json") = some manifest ∧ ∃ dependency value version,
        (dependency, value) ∈ Manifest.dependencies manifest ∧
        WorkspaceProtocol.plainVersion? value = some version ∧
        (WorkspaceProtocol.names c).contains dependency = true ∧
        f = plainDependency w dependency version := by
  unfold WorkspaceProtocol.check Manifest.fileName
  rw [Except.mem_flatten_mapM_iff]
  refine and_congr (forall₂_congr fun w _ => Rule.findingsIn_returns) ?_
  refine exists_congr fun w => and_congr_right fun _ => ?_
  dsimp only
  rw [Rule.mem_findingsIn_iff]
  exact exists_congr fun manifest => and_congr_right fun _ => mem_protocol_findings_iff

theorem mem_directive_iff : f ∈ ClientDirective.check c t ↔ ∃ path ∈ c.findFiles t .markupFiles,
    ClientDirective.isServerLayout path = false ∧ ∃ text, c.readNonempty? t path = some text ∧
      hasClientMark text = false ∧ ∃ name, ClientDirective.trigger? text = some name ∧
      f = (ClientDirective.info.finding path
        ("Uses " ++ name ++ " but missing \"use client\" directive")).asFixable := by
  unfold ClientDirective.check
  rw [List.mem_flatMap]
  refine exists_congr fun path => and_congr_right fun _ => ?_
  cases ClientDirective.isServerLayout path with
  | true => exact iff_of_false List.not_mem_nil fun h => by cases h.1
  | false =>
    rw [if_neg Bool.false_ne_true]
    cases c.readNonempty? t path with
    | none => exact iff_of_false List.not_mem_nil fun ⟨_, _, h, _⟩ => by cases h
    | some text =>
      dsimp only
      cases hm : hasClientMark text with
      | true =>
        refine iff_of_false List.not_mem_nil ?_
        rintro ⟨-, found, heq, hfalse, -⟩
        cases heq
        rw [hm] at hfalse
        cases hfalse
      | false =>
        rw [if_neg Bool.false_ne_true]
        cases ht : ClientDirective.trigger? text with
        | none =>
          refine iff_of_false List.not_mem_nil ?_
          rintro ⟨-, found, heq, -, name, hname, -⟩
          cases heq
          rw [ht] at hname
          cases hname
        | some name =>
          dsimp only
          rw [List.mem_singleton]
          constructor
          · rintro rfl
            exact ⟨rfl, text, rfl, hm, name, ht, rfl⟩
          · rintro ⟨-, found, heq, -, other, hother, rfl⟩
            cases heq
            rw [ht] at hother
            cases hother
            rfl

end Checkup
