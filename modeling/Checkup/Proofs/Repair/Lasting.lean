import Checkup.Proofs.Repair.Commuting

/-!
# Amendments that last

An amendment that had something to amend is still there after other amendments of the file: the option
is strict, the manifest has the default version of the engine, the dependency is one of the workspace,
the entries are in the file, the directive stands at its top.

* `Amendment.Lasts`: what a file says before and after an amendment and any other ones.
* `Rewritten.version`: the version of the engine after amendments.
* `Rewritten.lasts`: amendments last.
-/

namespace Checkup

open Json (Members)
open Hygiene (StrictTyping.isStrict EngineVersion.sectionName EngineVersion.isStated)
open Monorepo.WorkspaceProtocol (anyVersion)
open Application (ClientDirective.directive)
open Amendment (membersOf missing required)

/-- The version of the engine that a manifest states. -/
def engineVersion? (manifest : Members) : Option Json :=
  (Manifest.section? manifest "engines").bind (·.get? "node")

/-- The version of a dependency in a section of a manifest. -/
def versionUnder? (dependency : Label) (manifest : Members) (name : String) : Option Json :=
  (Manifest.section? manifest name).bind (·.get? dependency)

/-- A file says afterwards what an amendment makes of what it said before. -/
inductive Amendment.Lasts (before after : Option String) : Amendment → Prop
  | strict {settings : Members} (h : membersOf after = some settings)
    (hstrict : StrictTyping.isStrict settings = true) : Lasts before after .makeStrict
  | engine {manifest : Members} (h : membersOf after = some manifest)
    (hversion : engineVersion? manifest = some (.str ">=18")) : Lasts before after .stateEngine
  | dependency {dependency : Label} {manifest manifest' : Members}
    (h : membersOf before = some manifest) (h' : membersOf after = some manifest')
    (hversion : ∀ name ∈ Manifest.dependencySections, plainUnder dependency manifest name = true →
      versionUnder? dependency manifest' name = some (.str anyVersion)) :
    Lasts before after (.localize dependency)
  | ignored {kind : Kind} {message : Label} {new : String} (h : after = some new)
    (hentries : ∀ e ∈ required kind, (before.filter (· != "") = none ∨
      message.contains (Hygiene.GitIgnore.complaint e) = true) →
      Text.contains new e.pattern = true) : Lasts before after (.ignore kind message)
  | directive {old : String} (h : before = some old)
    (h' : after = some (ClientDirective.directive ++ old)) : Lasts before after .direct

variable {A : Amendment → Prop} {text text' : Option String} {a : Amendment} {manifest manifest' : Members}

theorem isStated_eq (manifest : Members) :
    EngineVersion.isStated manifest = (engineVersion? manifest).any Json.isGiven := rfl

theorem engineVersion?_edited (ha : a.Suits "package.json") (manifest : Members) :
    engineVersion? (a.edited manifest) = engineVersion? manifest ∨
      engineVersion? (a.edited manifest) = some (.str ">=18") := by
  rcases Amendment.suits_manifest ha with rfl | ⟨dependency, rfl⟩
  · refine .inr ?_
    have hsection := section?_put manifest EngineVersion.sectionName EngineVersion.sectionName
      (((Manifest.section? manifest EngineVersion.sectionName).getD []).put "node" (.str ">=18"))
    rw [if_pos rfl] at hsection
    refine (congrArg (·.bind (·.get? "node")) hsection).trans ?_
    rw [Option.bind_some, Members.get?_put, if_pos rfl]
  · exact .inl (congrArg (·.bind (·.get? "node")) (Amendment.section?_referTo dependency manifest))

theorem versionUnder?_of_localized {dependency : Label} {name : String}
    (h : Option.Rel Localized (Manifest.section? manifest name) (Manifest.section? manifest' name))
    (hplain : plainUnder dependency manifest name = true)
    (hplain' : plainUnder dependency manifest' name = false) :
    versionUnder? dependency manifest' name = some (.str anyVersion) := by
  unfold plainUnder at hplain hplain'
  unfold versionUnder?
  generalize Manifest.section? manifest name = members at h hplain
  generalize Manifest.section? manifest' name = members' at h hplain' ⊢
  cases h with
  | none => cases hplain
  | @some members members' h =>
    rw [Option.any_some] at hplain hplain'
    unfold plainIn at hplain hplain'
    rw [Option.bind_some]
    rcases h.get? dependency with ⟨hnone, -⟩ | ⟨value, value', hv, hv', hkept⟩
    · rw [hnone] at hplain
      cases hplain
    · rcases hkept with rfl | rfl
      · rw [hv, ← hv', hplain'] at hplain
        cases hplain
      · exact hv'

namespace Rewritten

/-- Amendments of a manifest leave the version of the engine, or state the default one. -/
theorem version (hA : ∀ a, A a → a.Suits "package.json") (h : Rewritten A text text')
    (hm : membersOf text = some manifest) (hm' : membersOf text' = some manifest') :
    engineVersion? manifest' = engineVersion? manifest ∨
      engineVersion? manifest' = some (.str ">=18") := by
  induction h generalizing manifest' with
  | refl =>
    rw [hm] at hm'
    cases hm'
    exact .inl rfl
  | step _ ha hs ih =>
    obtain ⟨between, hbetween, -, hafter⟩ := Amendment.apply_edited (hA _ ha) hs
    rw [hafter] at hm'
    cases hm'
    rcases engineVersion?_edited (hA _ ha) between with heq | hdefault
    · rw [heq]
      exact ih hbetween
    · exact .inr hdefault

/-- The manifests before and after amendments of which one had something to amend. -/
theorem exists_kept (hA : ∀ a, A a → a.Suits "package.json") (h : Rewritten A text text') (ha : A a)
    (hbefore : a.apply text ≠ none) : ∃ manifest manifest', membersOf text = some manifest ∧
      membersOf text' = some manifest' ∧ Kept manifest manifest' := by
  obtain ⟨s, hs⟩ := Option.ne_none_iff_exists'.mp hbefore
  obtain ⟨manifest, hm, -, -⟩ := Amendment.apply_edited (hA a ha) hs
  have hrel := h.manifest hA
  rw [hm] at hrel
  cases hm' : membersOf text' with
  | none =>
    rw [hm'] at hrel
    cases hrel
  | some manifest' =>
    rw [hm'] at hrel
    cases hrel with
    | some hkept => exact ⟨manifest, manifest', hm, rfl, hkept⟩

theorem lasts_engine (hA : ∀ a, A a → a.Suits "package.json") (h : Rewritten A text text')
    (ha : A .stateEngine) (hbefore : Amendment.stateEngine.apply text ≠ none)
    (hafter : Amendment.stateEngine.apply text' = none) : Amendment.stateEngine.Lasts text text' := by
  obtain ⟨manifest, manifest', hm, hm', -⟩ := h.exists_kept hA ha hbefore
  have hstated := Amendment.engine_idle.mp hafter _ hm'
  refine .engine hm' ((h.version hA hm hm').resolve_left fun hsame => hbefore ?_)
  rw [isStated_eq, hsame, ← isStated_eq] at hstated
  refine Amendment.engine_idle.mpr fun found hfound => ?_
  rw [hm] at hfound
  cases hfound
  exact hstated

theorem lasts_localize {dependency : Label} (hA : ∀ a, A a → a.Suits "package.json")
    (h : Rewritten A text text') (ha : A (.localize dependency))
    (hbefore : (Amendment.localize dependency).apply text ≠ none)
    (hafter : (Amendment.localize dependency).apply text' = none) :
    (Amendment.localize dependency).Lasts text text' := by
  obtain ⟨manifest, manifest', hm, hm', hkept⟩ := h.exists_kept hA ha hbefore
  refine .dependency hm hm' fun name hname hplain => ?_
  exact versionUnder?_of_localized (hkept.localized name hname) hplain
    (Amendment.localize_idle.mp hafter _ hm' name hname)

theorem lasts_ignore {kind : Kind} {message : Label}
    (hA : ∀ a, A a → ∃ message, a = .ignore kind message) (h : Rewritten A text text')
    (hchanged : text' ≠ text) (hafter : (Amendment.ignore kind message).apply text' = none) :
    (Amendment.ignore kind message).Lasts text text' := by
  obtain ⟨new, rfl, hnonempty, hlacks⟩ := (h.ignored hA).resolve_left hchanged
  obtain ⟨found, hfound, hnothing⟩ := Amendment.ignore_idle.mp hafter
  obtain ⟨heq, -⟩ := Amendment.filter_eq_some.mp hfound
  cases heq
  refine .ignored rfl fun e he hasked => ?_
  by_contra hnot
  have hmissing : e ∈ missing kind new := Amendment.mem_missing.mpr ⟨he, Bool.eq_false_iff.mpr hnot⟩
  rcases hasked with hnone | hcomplaint
  · obtain ⟨old, hold, -⟩ := hlacks e hmissing
    rw [hnone] at hold
    cases hold
  · have hwanted : e ∈ Amendment.wanted kind message new := List.mem_filter.mpr ⟨hmissing, hcomplaint⟩
    rw [hnothing] at hwanted
    cases hwanted

/-- An amendment that had something to amend, and has nothing to amend any more, lasts. -/
theorem lasts {name : String} (hA : ∀ a, A a → a.Suits name)
    (hkind : ∀ {kind message kind' message'}, A (.ignore kind message) → A (.ignore kind' message') →
      kind' = kind) (h : Rewritten A text text') (ha : A a) (hbefore : a.apply text ≠ none)
    (hafter : a.apply text' = none) : a.Lasts text text' := by
  have hchanged : text' ≠ text := by
    rintro rfl
    exact hbefore hafter
  have hname := hA a ha
  cases a with
  | makeStrict =>
    obtain rfl : name = "tsconfig.json" := hname
    obtain ⟨settings, hm, hstrict⟩ := (h.settings hA).resolve_left hchanged
    exact .strict hm hstrict
  | stateEngine =>
    obtain rfl : name = "package.json" := hname
    exact h.lasts_engine hA ha hbefore hafter
  | localize dependency =>
    obtain rfl : name = "package.json" := hname
    exact h.lasts_localize hA ha hbefore hafter
  | ignore kind message =>
    obtain rfl : name = ".gitignore" := hname
    refine h.lasts_ignore (fun a' ha' => ?_) hchanged hafter
    obtain ⟨kind', message', rfl⟩ := Amendment.suits_ignored (hA a' ha')
    obtain rfl := hkind ha ha'
    exact ⟨message', rfl⟩
  | direct =>
    obtain ⟨old, hold, hnew⟩ := (h.directed hname hA).resolve_left hchanged
    exact .directive hold hnew

end Rewritten

end Checkup
