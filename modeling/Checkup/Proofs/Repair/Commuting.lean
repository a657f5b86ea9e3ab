import Checkup.Proofs.Repair.Complaints
import Checkup.Proofs.Repair.Members

/-!
# Amendments of one file in any order

Several amendments of one file are made one after the other, each of what the file says by then. In
which order they are made makes no difference to what the file says in the end, but for files of
ignored paths, where the new entries come in the order of the amendments.

* `overlay`: what amendments write to a file.
* `overlay_perm`: amendments of a manifest, of settings or of a file with markup, in another order.
* `overlay_ignored`: amendments of a file of ignored paths, each of which adds the entry that it is for.
* `overlay_perm_ignored`: the same amendments in another order.
-/

namespace Checkup

open Json (Members)
open Hygiene (EngineVersion.sectionName EngineVersion.state)
open Hygiene.GitIgnore (Entry lines extend)

namespace Amendment

variable {base written text : Option String} {a a' : Amendment} {as as' : List Amendment} {s s' : String}

/-- What was written to a file that said something at first, with one more amendment made. -/
def layer (base written : Option String) (a : Amendment) : Option String :=
  (a.apply (written.or base)).or written

/-- What amendments write to a file that says something at first; none if there is nothing to amend. -/
def overlay (base : Option String) (as : List Amendment) : Option String := as.foldl (layer base) none

theorem layer_idle (h : a.apply (written.or base) = none) : layer base written a = written := by
  unfold layer
  rw [h, Option.none_or]

theorem layer_made (h : a.apply (written.or base) = some s) : layer base written a = some s := by
  unfold layer
  rw [h, Option.some_or]

theorem overlay_concat (base : Option String) (as : List Amendment) (a : Amendment) :
    overlay base (as ++ [a]) = layer base (overlay base as) a := List.foldl_concat ..

/-! ## Manifests -/

theorem referIn_comm (dependency dependency' : Label) (value : Json) :
    referIn dependency (referIn dependency' value) = referIn dependency' (referIn dependency value) := by
  cases value with
  | obj members => exact congrArg Json.obj (Members.update_comm fun _ _ => rfl)
  | _ => rfl

theorem update_referIn_comm (dependency dependency' : Label) (manifest : Members) (name name' : String) :
    (manifest.update name (referIn dependency)).update name' (referIn dependency') =
      (manifest.update name' (referIn dependency')).update name (referIn dependency) :=
  Members.update_comm fun _ => referIn_comm dependency dependency'

theorem referTo_eq (dependency : Label) (manifest : Members) : referTo dependency manifest =
    (manifest.update "dependencies" (referIn dependency)).update "devDependencies"
      (referIn dependency) := rfl

/-- Two dependencies are made local in either order. -/
theorem referTo_comm (dependency dependency' : Label) (manifest : Members) :
    referTo dependency (referTo dependency' manifest) =
      referTo dependency' (referTo dependency manifest) := by
  rw [referTo_eq, referTo_eq, referTo_eq, referTo_eq,
    update_referIn_comm dependency' dependency _ "devDependencies" "dependencies",
    update_referIn_comm dependency' dependency _ "dependencies" "dependencies",
    update_referIn_comm dependency' dependency _ "devDependencies" "devDependencies",
    update_referIn_comm dependency' dependency _ "dependencies" "devDependencies"]

theorem section?_referTo (dependency : Label) (manifest : Members) :
    Manifest.section? (referTo dependency manifest) EngineVersion.sectionName =
      Manifest.section? manifest EngineVersion.sectionName := by
  have hne : ∀ name ∈ Manifest.dependencySections,
      Label.text EngineVersion.sectionName ≠ Label.text name := by decide
  unfold Manifest.section?
  rw [referTo_eq, Members.get?_update, if_neg (hne _ (by decide)), Members.get?_update,
    if_neg (hne _ (by decide))]

/-- The engine is stated before or after a dependency is made local. -/
theorem state_referTo (dependency : Label) (manifest : Members) :
    EngineVersion.state (referTo dependency manifest) =
      referTo dependency (EngineVersion.state manifest) := by
  have hne : ∀ name ∈ Manifest.dependencySections,
      Label.text EngineVersion.sectionName ≠ Label.text name := by decide
  unfold EngineVersion.state
  rw [section?_referTo, referTo_eq, referTo_eq, Members.put_update (hne _ (by decide)),
    Members.put_update (hne _ (by decide))]

/-- A manifest after an amendment of manifests. -/
def edited : Amendment → Members → Members
  | stateEngine, manifest => EngineVersion.state manifest
  | localize dependency, manifest => referTo dependency manifest
  | _, manifest => manifest

theorem edited_comm (ha : a.Suits "package.json") (ha' : a'.Suits "package.json") (manifest : Members) :
    a.edited (a'.edited manifest) = a'.edited (a.edited manifest) := by
  rcases suits_manifest ha with rfl | ⟨dependency, rfl⟩
  · rcases suits_manifest ha' with rfl | ⟨dependency', rfl⟩
    · rfl
    · exact state_referTo dependency' manifest
  · rcases suits_manifest ha' with rfl | ⟨dependency', rfl⟩
    · exact (state_referTo dependency manifest).symm
    · exact referTo_comm dependency dependency' manifest

/-- An amendment of a manifest writes the edited manifest. -/
theorem apply_edited (ha : a.Suits "package.json") (h : a.apply text = some s) : ∃ manifest,
    membersOf text = some manifest ∧ s = textOf (a.edited manifest) ∧
      membersOf (some s) = some (a.edited manifest) := by
  rcases suits_manifest ha with rfl | ⟨dependency, rfl⟩
  · obtain ⟨stated, hbind, rfl⟩ := Option.map_eq_some_iff.mp h
    obtain ⟨manifest, hm, he⟩ := Option.bind_eq_some_iff.mp hbind
    have hread := (kept_engineMembers (fits_membersOf hm) he).1.fits
    unfold engineMembers at he
    split at he
    · cases he
    · cases he
      exact ⟨manifest, hm, rfl, membersOf_textOf hread⟩
  · obtain ⟨localized, hbind, rfl⟩ := Option.map_eq_some_iff.mp h
    obtain ⟨manifest, hm, he⟩ := Option.bind_eq_some_iff.mp hbind
    have hread := (kept_localMembers (fits_membersOf hm) he).1.fits
    obtain rfl := localMembers_referTo (fits_membersOf hm) he
    exact ⟨manifest, hm, rfl, membersOf_textOf hread⟩

/-- An amendment of a manifest is made after another one as it would have been made before. -/
theorem apply_after (ha : a.Suits "package.json") (ha' : a'.Suits "package.json") (hne : a ≠ a')
    {manifest : Members} (hm : membersOf text = some manifest) (h : a.apply text = some s)
    (h' : a'.apply text = some s') : a'.apply (some s) = some (textOf (a'.edited (a.edited manifest))) := by
  cases hafter : a'.apply (some s) with
  | none =>
    have hidle := idle_before_manifest ha' ha (Ne.symm hne) h hafter
    rw [h'] at hidle
    cases hidle
  | some after =>
    obtain ⟨found, hfound, -, hs⟩ := apply_edited ha h
    obtain ⟨between, hbetween, rfl, -⟩ := apply_edited ha' hafter
    rw [hm] at hfound
    cases hfound
    rw [hs] at hbetween
    cases hbetween
    rfl

theorem layer_comm_manifest (ha : a.Suits "package.json") (ha' : a'.Suits "package.json")
    (base written : Option String) :
    layer base (layer base written a) a' = layer base (layer base written a') a := by
  by_cases hne : a = a'
  · rw [hne]
  cases h : a.apply (written.or base) with
  | none =>
    cases h' : a'.apply (written.or base) with
    | none => rw [layer_idle h, layer_idle h', layer_idle h]
    | some s' =>
      rw [layer_idle h, layer_made h']
      exact (layer_idle (apply_idle ha ha' h h')).symm
  | some s =>
    cases h' : a'.apply (written.or base) with
    | none =>
      rw [layer_idle h', layer_made h]
      exact layer_idle (apply_idle ha' ha h' h)
    | some s' =>
      obtain ⟨manifest, hm, -, -⟩ := apply_edited ha h
      have hfirst := apply_after ha ha' hne hm h h'
      have hsecond := apply_after ha' ha (Ne.symm hne) hm h' h
      rw [edited_comm ha ha'] at hsecond
      rw [layer_made h, layer_made h', layer_made hfirst, layer_made hsecond]

/-- Two amendments of a file that is none of ignored paths, in either order. -/
theorem layer_comm {name : String} (hname : name ≠ ".gitignore") (ha : a.Suits name)
    (ha' : a'.Suits name) (base written : Option String) :
    layer base (layer base written a) a' = layer base (layer base written a') a := by
  cases a with
  | makeStrict =>
    obtain rfl : name = "tsconfig.json" := ha
    rw [suits_settings ha']
  | stateEngine =>
    obtain rfl : name = "package.json" := ha
    exact layer_comm_manifest (a := stateEngine) rfl ha' base written
  | localize dependency =>
    obtain rfl : name = "package.json" := ha
    exact layer_comm_manifest (a := localize dependency) rfl ha' base written
  | ignore => exact absurd ha hname
  | direct => rw [suits_markup ha ha']

/-- Amendments of a file that is none of ignored paths write the same in every order. -/
theorem overlay_perm {name : String} (hname : name ≠ ".gitignore") (has : ∀ a ∈ as, a.Suits name)
    (h : as.Perm as') (base : Option String) : overlay base as = overlay base as' :=
  h.foldl_eq' (fun a ha a' ha' written => layer_comm hname (has a ha) (has a' ha') base written) none

/-! ## Ignored paths -/

variable {kind : Kind} {old : String} {e e' : Entry} {es : List Entry}

/-- The amendment that a finding on a missing entry asks for. -/
def completing (kind : Kind) (e : Entry) : Amendment := .ignore kind (lacking e).message

theorem completing_inj (he : e ∈ required kind) (he' : e' ∈ required kind) :
    completing kind e = completing kind e' ↔ e = e' := by
  have hall : ∀ e ∈ required .frameworkApp, ∀ e' ∈ required .frameworkApp,
      (lacking e).message = (lacking e').message → e = e' := by decide +kernel
  constructor
  · intro h
    exact hall e (mem_required he) e' (mem_required he') (Amendment.ignore.inj h).2
  · rintro rfl
    rfl

theorem wanted_of_not_missing (hreq : e ∈ required kind) (he : e ∉ missing kind old) :
    wanted kind (lacking e).message old = [] := by
  refine List.eq_nil_iff_forall_not_mem.mpr fun e' he' => ?_
  obtain rfl := eq_of_wanted hreq he'
  exact he (List.mem_filter.mp he').1

theorem lines_append (es es' : List Entry) : lines (es ++ es') = lines es ++ lines es' := by
  unfold lines
  rw [List.map_append, String.join_append]

/-- Behind added entries begins a new line. -/
theorem endsWith_extend (hes : es ≠ []) (old : String) :
    Text.endsWith (extend old es).toList ['\n'] = true := by
  obtain ⟨front, e, rfl⟩ := (List.eq_nil_or_concat' es).resolve_left hes
  refine List.isPrefixOf_iff_prefix.mpr (List.reverse_prefix.mpr ?_)
  have hline : (lines [e]).toList = e.pattern.toList ++ ['\n'] := by
    unfold lines
    simp
  unfold extend
  rw [lines_append, String.toList_append, String.toList_append, String.toList_append, hline,
    ← List.append_assoc, ← List.append_assoc]
  exact List.suffix_append _ _

/-- Entries are added one after the other. -/
theorem extend_extend (hes : es ≠ []) (old : String) (es' : List Entry) :
    extend (extend old es) es' = extend old (es ++ es') := by
  have hend := endsWith_extend hes old
  rw [extend, hend, if_pos rfl, String.append_empty, extend, extend, lines_append,
    String.append_assoc, String.append_assoc]

/-- A text with entries added, if there are any. -/
def completed (old : String) (es : List Entry) : String := if es = [] then old else extend old es

theorem extended_eq (old : String) (es : List Entry) :
    extended old es = if es = [] then none else some (extend old es) := by
  cases es with
  | nil => rfl
  | cons e es => rfl

theorem extended_or (old : String) (es : List Entry) :
    (extended old es).or (some old) = some (completed old es) := by
  rw [extended_eq, completed]
  split
  · rfl
  · rfl

theorem mem_missing_completed (he : e ∈ missing kind old) (hes : ∀ e ∈ es, e ∈ required kind) :
    e ∈ missing kind (completed old es) ↔ e ∉ es := by
  unfold completed
  split
  · rename_i hnil
    rw [hnil]
    exact iff_of_true he List.not_mem_nil
  · exact mem_missing_extend he hes

theorem extended_completed (old : String) (es es' : List Entry) (hes' : es' ≠ []) :
    extended (completed old es) es' = extended old (es ++ es') := by
  have happend : es ++ es' ≠ [] := fun hnil => hes' (List.append_eq_nil_iff.mp hnil).2
  rw [extended_eq, if_neg hes', extended_eq, if_neg happend]
  unfold completed
  split
  · rename_i hnil
    rw [hnil, List.nil_append]
  · rename_i hne
    rw [extend_extend hne]

theorem completed_ne_empty (hold : old ≠ "") (es : List Entry) : completed old es ≠ "" := by
  unfold completed
  split
  · exact hold
  · exact ne_empty_of_part hold (infix_extend old es)

/-- One more entry is added, if it was not added yet. -/
theorem layer_completing (hold : base.filter (· != "") = some old) (he : e ∈ missing kind old)
    (hes : ∀ e ∈ es, e ∈ required kind) : layer base (extended old es) (completing kind e) =
      extended old (if e ∈ es then es else es ++ [e]) := by
  obtain ⟨rfl, hnonempty⟩ := filter_eq_some.mp hold
  have hfilter : (some (completed old es)).filter (· != "") = some (completed old es) :=
    filter_eq_some.mpr ⟨rfl, completed_ne_empty hnonempty es⟩
  have hmissing := mem_missing_completed he hes
  have happly : (completing kind e).apply ((extended old es).or (some old)) =
      extended (completed old es) (wanted kind (lacking e).message (completed old es)) := by
    unfold completing apply
    dsimp only
    rw [extended_or, hfilter]
  unfold layer
  rw [happly]
  split
  · rename_i hmem
    have hnot : e ∉ missing kind (completed old es) := fun hm => hmissing.mp hm hmem
    rw [wanted_of_not_missing (mem_missing.mp he).1 hnot]
    rfl
  · rename_i hmem
    have hne : es ++ [e] ≠ [] := List.append_ne_nil_of_right_ne_nil es (List.cons_ne_nil e [])
    rw [wanted_lacking (hmissing.mpr hmem), extended_completed old es [e] (List.cons_ne_nil e []),
      extended_eq, if_neg hne, Option.some_or]

/-- Amendments that complete a file add each entry once, in the order in which they ask for it. -/
theorem overlay_ignored (hold : base.filter (· != "") = some old)
    (has : ∀ a ∈ as, ∃ e ∈ missing kind old, a = completing kind e) : ∃ es, es.Nodup ∧
      (∀ e, e ∈ es ↔ e ∈ missing kind old ∧ completing kind e ∈ as) ∧
      overlay base as = extended old es := by
  induction as using List.reverseRecOn with
  | nil => exact ⟨[], List.nodup_nil, fun e => by simp, rfl⟩
  | append_singleton as a ih =>
    obtain ⟨es, hnodup, hmem, hoverlay⟩ := ih fun a ha => has a (List.mem_append_left _ ha)
    obtain ⟨e, he, rfl⟩ := has a (List.mem_append_right _ (List.mem_singleton_self a))
    have hreq : ∀ e' ∈ es, e' ∈ required kind := fun e' he' =>
      (mem_missing.mp ((hmem e').mp he').1).1
    -- an entry is asked for by its own amendment only
    have hasked : ∀ e', (e' ∈ missing kind old ∧ completing kind e' ∈ as ++ [completing kind e]) ↔
        e' ∈ es ∨ e' = e := by
      intro e'
      rw [List.mem_append, List.mem_singleton, and_or_left, ← hmem]
      refine or_congr_right ⟨fun ⟨he', heq⟩ => ?_, ?_⟩
      · exact (completing_inj (mem_missing.mp he').1 (mem_missing.mp he).1).mp heq
      · rintro rfl
        exact ⟨he, rfl⟩
    rw [overlay_concat, hoverlay, layer_completing hold he hreq]
    by_cases hin : e ∈ es
    · rw [if_pos hin]
      refine ⟨es, hnodup, fun e' => ?_, rfl⟩
      rw [hasked, or_iff_left_of_imp]
      rintro rfl
      exact hin
    · rw [if_neg hin]
      refine ⟨es ++ [e], ?_, fun e' => ?_, rfl⟩
      · exact hnodup.append (List.nodup_singleton e) (List.disjoint_singleton.mpr hin)
      · rw [hasked, List.mem_append, List.mem_singleton]

/-- The amendments that complaints about a file of ignored paths ask for write the same in every order,
up to the order of the new entries. -/
theorem overlay_perm_ignored
    (has : ∀ a ∈ as, ∃ message, a = .ignore kind message ∧ Lacks kind base message) (h : as.Perm as') :
    overlay base as = overlay base as' ∨ ∃ old es es', base = some old ∧ es.Perm es' ∧
      overlay base as = some (extend old es) ∧ overlay base as' = some (extend old es') := by
  cases hold : base.filter (· != "") with
  | none =>
    -- all of them ask for all entries
    have hsame : ∀ a ∈ as, a = .ignore kind absent.message := by
      intro a ha
      obtain ⟨message, rfl, hlacks⟩ := has a ha
      cases hlacks with
      | all => rfl
      | one hsome =>
        rw [hold] at hsome
        cases hsome
    have hreplicate := List.eq_replicate_iff.mpr ⟨rfl, hsame⟩
    rw [hreplicate] at h
    exact .inl (congrArg (overlay base) (hreplicate.trans (List.perm_replicate.mp h.symm).symm))
  | some old =>
    have hcompleting : ∀ a ∈ as, ∃ e ∈ missing kind old, a = completing kind e := by
      intro a ha
      obtain ⟨message, rfl, hlacks⟩ := has a ha
      cases hlacks with
      | all hnone =>
        rw [hold] at hnone
        cases hnone
      | one hsome he =>
        rw [hold] at hsome
        cases hsome
        exact ⟨_, he, rfl⟩
    obtain ⟨es, hnodup, hmem, hoverlay⟩ := overlay_ignored hold hcompleting
    obtain ⟨es', hnodup', hmem', hoverlay'⟩ :=
      overlay_ignored hold fun a ha => hcompleting a (h.mem_iff.mpr ha)
    have hperm : es.Perm es' := (List.perm_ext_iff_of_nodup hnodup hnodup').mpr fun e => by
      rw [hmem, hmem', h.mem_iff]
    rw [hoverlay, hoverlay', extended_eq, extended_eq]
    by_cases hnil : es = []
    · obtain rfl := hnil
      exact .inl (by rw [if_pos rfl, if_pos hperm.nil_eq.symm])
    · have hnil' : es' ≠ [] := by
        rintro rfl
        exact hnil hperm.eq_nil
      rw [if_neg hnil, if_neg hnil']
      exact .inr ⟨old, es, es', (filter_eq_some.mp hold).1, hperm, rfl, rfl⟩

end Amendment

end Checkup
