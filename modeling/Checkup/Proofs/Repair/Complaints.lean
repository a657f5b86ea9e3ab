import Checkup.Proofs.Repair.Apart
import Checkup.Proofs.Repair.Dependencies
import Checkup.Proofs.Run.Edits

/-!
# What findings complain of

A finding that can be repaired complains of what a file says, or fails to say, and its repair amends
just that. The rule, the file and the message of the finding tell the amendment, and the other way
round.

* `Complains`: a complaint about a file, with the amendment that repairs it.
* `Complains.amendment_eq`, `Complains.message_eq`: complaint and amendment tell each other.
* `Complains.of_settled`: the amendment is to be made, but for ignored paths that cannot be written.
* `Complains.idle_before`: no amendment does the work of another one.
-/

namespace Checkup

open Json (Members)
open Amendment (membersOf missing)
open Monorepo (WorkspaceProtocol.message WorkspaceProtocol.plainVersion?)
open Application (hasClientMark ClientDirective.trigger?)

/-- The id of the rule whose repairs make an amendment. -/
def Amendment.ruleId : Amendment → String
  | makeStrict => Hygiene.StrictTyping.info.id
  | stateEngine => Hygiene.EngineVersion.info.id
  | localize _ => Monorepo.WorkspaceProtocol.info.id
  | ignore _ _ => Hygiene.GitIgnore.info.id
  | direct => Application.ClientDirective.info.id

theorem Amendment.eq_of_ruleId {a a' : Amendment} (h : a.ruleId = a'.ruleId) : a = a' ∨
    (∃ dependency dependency', a = .localize dependency ∧ a' = .localize dependency') ∨
      ∃ kind message kind' message', a = .ignore kind message ∧ a' = .ignore kind' message' := by
  cases a <;> cases a' <;> simp_all [ruleId, Hygiene.StrictTyping.info, Hygiene.EngineVersion.info,
    Hygiene.GitIgnore.info, Monorepo.WorkspaceProtocol.info, Application.ClientDirective.info]

/-- What can be read can be written, so nothing is read where nothing can be written. -/
theorem Tree.content_of_not_writable {t : Tree} (ht : t.Ordinary) {l : Location} (hl : Tree.Plain l)
    (hw : ¬ t.Writable l) : t.content l = none := by
  by_contra hsome
  obtain ⟨s, hs⟩ := Option.ne_none_iff_exists'.mp hsome
  obtain ⟨hfits, bytes, hbytes, -⟩ := Tree.file_of_content ht hl hs
  exact hw ⟨hfits, .inl ⟨bytes, hbytes⟩⟩

/-- A message complains of a text with ignored paths in a project of some kind. -/
inductive Lacks (kind : Kind) (text : Option String) : Label → Prop
  | all (h : text.filter (· != "") = none) : Lacks kind text absent.message
  | one {old : String} (h : text.filter (· != "") = some old) {e : Hygiene.GitIgnore.Entry}
    (he : e ∈ missing kind old) : Lacks kind text (lacking e).message

/-- A message complains of a text, in a way that an amendment repairs. -/
inductive Complains (kind : Kind) (text : Option String) (message : Label) : Amendment → Prop
  | strict {settings : Members} (h : membersOf text = some settings)
    (hsilent : saysStrict settings = false) (hm : message = "TypeScript strict mode is disabled") :
    Complains kind text message .makeStrict
  | engine {manifest : Members} (h : membersOf text = some manifest)
    (hsilent : Hygiene.EngineVersion.isStated manifest = false)
    (hm : message = "Missing engines.node field") : Complains kind text message .stateEngine
  | ignored (h : Lacks kind text message) : Complains kind text message (.ignore kind message)
  | protocol {manifest : Members} (h : membersOf text = some manifest) {dependency version : Label}
    (hword : ∀ c ∈ dependency.nearest.toList, Text.isBlank c = false) {value : Json}
    (hmem : (dependency, value) ∈ Manifest.dependencies manifest)
    (hversion : WorkspaceProtocol.plainVersion? value = some version)
    (hm : message = WorkspaceProtocol.message dependency version) :
    Complains kind text message (.localize dependency)
  | directive {s name : String} (h : text = some s) (hmark : hasClientMark s = false)
    (htrigger : ClientDirective.trigger? s = some name)
    (hm : message = .text ("Uses " ++ name ++ " but missing \"use client\" directive")) :
    Complains kind text message .direct

/-- Of the amendments that complaints about ignored paths ask for, no one does the work of another
one. -/
theorem Lacks.idle_before {kind : Kind} {text text' : Option String} {message message' : Label}
    (h : Lacks kind text message) (h' : Lacks kind text message') {A : Amendment → Prop}
    (hA : ∀ a, A a → ∃ message, a = .ignore kind message) (hrewritten : Rewritten A text text')
    (hne : Amendment.ignore kind message ≠ .ignore kind message') {s : String}
    (hs : (Amendment.ignore kind message').apply text' = some s)
    (hidle : (Amendment.ignore kind message).apply (some s) = none) :
    (Amendment.ignore kind message).apply text' = none := by
  cases h with
  | all hnone =>
    cases h' with
    | all => exact absurd rfl hne
    | one hold =>
      rw [hnone] at hold
      cases hold
  | @one old hold e he =>
    cases h' with
    | all hnone =>
      rw [hold] at hnone
      cases hnone
    | @one old' hold' e' he' =>
      have hother : e' ≠ e := fun heq => hne (by rw [heq])
      obtain ⟨hreq, -⟩ := Amendment.mem_missing.mp he
      obtain ⟨hreq', -⟩ := Amendment.mem_missing.mp he'
      -- what was there is still there
      obtain ⟨now, hnow⟩ : ∃ now, text'.filter (· != "") = some now := by
        rcases hrewritten.ignored hA with rfl | ⟨now, rfl, hnonempty, -⟩
        · exact ⟨old, hold⟩
        · exact ⟨now, Amendment.filter_eq_some.mpr ⟨rfl, hnonempty⟩⟩
      exact Amendment.idle_before_ignored hreq hreq' hother hnow hs hidle

namespace Complains

variable {kind : Kind} {text : Option String} {message message' : Label} {a a' : Amendment}

/-- The rule and the message tell the amendment. -/
theorem amendment_eq (h : Complains kind text message a) (h' : Complains kind text message a')
    (hid : a.ruleId = a'.ruleId) : a = a' := by
  rcases Amendment.eq_of_ruleId hid with rfl | ⟨dependency, dependency', rfl, rfl⟩ | ⟨_, _, _, _, rfl, rfl⟩
  · rfl
  · cases h with
    | protocol _ hword _ _ hm =>
      cases h' with
      | protocol _ hword' _ _ hm' => rw [eq_of_message hword hword' (hm.symm.trans hm')]
  · cases h
    cases h'
    rfl

/-- The amendment tells the message. -/
theorem message_eq (h : Complains kind text message a) (h' : Complains kind text message' a) :
    message = message' := by
  cases h with
  | strict _ _ hm =>
    cases h' with
    | strict _ _ hm' => exact hm.trans hm'.symm
  | engine _ _ hm =>
    cases h' with
    | engine _ _ hm' => exact hm.trans hm'.symm
  | ignored =>
    cases h'
    rfl
  | protocol hread _ hmem hversion hm =>
    cases h' with
    | protocol hread' _ hmem' hversion' hm' =>
      rw [hread] at hread'
      cases hread'
      rw [eq_of_mem_dependencies hmem hmem', hversion'] at hversion
      cases hversion
      exact hm.trans hm'.symm
  | directive htext _ htrigger hm =>
    cases h' with
    | directive htext' _ htrigger' hm' =>
      rw [htext] at htext'
      cases htext'
      rw [htrigger] at htrigger'
      cases htrigger'
      exact hm.trans hm'.symm

/-- A complaint about a file that is there asks for something. -/
theorem isSome_apply (h : Complains kind text message a) : a.apply text ≠ none := by
  cases h with
  | strict hread hsilent =>
    intro hidle
    rw [saysStrict_of_isStrict (Amendment.strict_idle.mp hidle _ hread)] at hsilent
    cases hsilent
  | engine hread hsilent =>
    intro hidle
    rw [Amendment.engine_idle.mp hidle _ hread] at hsilent
    cases hsilent
  | ignored hlacks =>
    intro hidle
    obtain ⟨old, hold, hnothing⟩ := Amendment.ignore_idle.mp hidle
    cases hlacks with
    | all h =>
      rw [h] at hold
      cases hold
    | @one found h e he =>
      rw [h] at hold
      cases hold
      rw [Amendment.wanted_lacking he] at hnothing
      cases hnothing
  | protocol hread _ hmem hversion =>
    intro hidle
    obtain ⟨name, hname, hplain⟩ :=
      plainUnder_of_mem (Amendment.fits_membersOf hread) hmem hversion
    rw [Amendment.localize_idle.mp hidle _ hread name hname] at hplain
    cases hplain
  | directive htext hmark =>
    intro hidle
    rw [Amendment.direct_idle.mp hidle _ htext] at hmark
    cases hmark

/-- What a finding complains of is to be repaired, unless there is no place for ignored paths. -/
theorem of_settled {t : Tree} (ht : t.Ordinary) {l : Location} (hl : Tree.Plain l)
    (h : Complains kind (t.content l) message a) (hs : Settled t l a) :
    a.ruleId = Hygiene.GitIgnore.info.id ∧ ¬ t.Writable l := by
  have hw : ¬ t.Writable l := fun hw =>
    Checkup.not_settled hw rfl (Option.isSome_iff_ne_none.mpr h.isSome_apply) hs
  refine ⟨?_, hw⟩
  rw [Tree.content_of_not_writable ht hl hw] at h
  cases h with
  | strict h => cases h
  | engine h => cases h
  | ignored => rfl
  | protocol h => cases h
  | directive h => cases h

/-- Of the amendments that complaints about a file ask for, no one does the work of another one. -/
theorem idle_before {A : Amendment → Prop} {name : String} (hsuits : ∀ a, A a → a.Suits name)
    (hcomplains : ∀ a, A a → ∃ message, Complains kind text message a) {text' : Option String}
    (h : Rewritten A text text') (ha : A a) (ha' : A a') (hne : a ≠ a') {s : String}
    (hs : a'.apply text' = some s) (hidle : a.apply (some s) = none) : a.apply text' = none := by
  have hname := hsuits a ha
  have hname' := hsuits a' ha'
  obtain ⟨message, hcomplaint⟩ := hcomplains a ha
  obtain ⟨message', hcomplaint'⟩ := hcomplains a' ha'
  cases hcomplaint with
  | strict =>
    obtain rfl : name = "tsconfig.json" := hname
    exact absurd (Amendment.suits_settings hname').symm hne
  | directive => exact absurd (Amendment.suits_markup hname hname').symm hne
  | engine =>
    obtain rfl : name = "package.json" := hname
    exact Amendment.idle_before_manifest (hsuits _ ha) hname' hne hs hidle
  | protocol =>
    obtain rfl : name = "package.json" := hname
    exact Amendment.idle_before_manifest (hsuits _ ha) hname' hne hs hidle
  | ignored hlacks =>
    obtain rfl : name = ".gitignore" := hname
    obtain ⟨_, _, rfl⟩ := Amendment.suits_ignored hname'
    have hignored : ∀ a, A a → ∃ message, a = .ignore kind message := by
      intro a ha
      obtain ⟨_, _, rfl⟩ := Amendment.suits_ignored (hsuits a ha)
      obtain ⟨_, hcomplaint⟩ := hcomplains _ ha
      cases hcomplaint
      exact ⟨_, rfl⟩
    cases hcomplaint' with
    | ignored hlacks' => exact hlacks.idle_before hlacks' hignored h hne hs hidle

end Complains

end Checkup
