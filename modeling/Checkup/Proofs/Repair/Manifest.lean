import Checkup.Proofs.Json.RoundTrip
import Checkup.Proofs.Repair.Amendment
import Mathlib.Data.Option.Basic
import Mathlib.Data.List.Forall2

/-!
# What repairs keep of a manifest

A repair states the version of the engine, or makes plain versions of a dependency refer to the
workspace. All else in the manifest stays, and so do the names of the dependencies.

* `kept_engineMembers`, `kept_localMembers`: one repair of a manifest.
* `localMembers_eq_none`: when there is nothing to localize.
* `dependencies_kept`: the dependencies of a manifest that was repaired.
-/

namespace Checkup

open Json (Members)
open Monorepo.WorkspaceProtocol (plainVersion? anyVersion localizeSection localizeIn localize)
open Hygiene.EngineVersion (isStated)

/-- The dependency has a plain version among some members. -/
def plainIn (dependency : Label) (members : Members) : Bool :=
  ((members.get? dependency).bind plainVersion?).isSome

/-- The dependency has a plain version in a section of a manifest. -/
def plainUnder (dependency : Label) (manifest : Members) (name : String) : Bool :=
  (Manifest.section? manifest name).any (plainIn dependency)

/-- The same members in the same order, some of which refer to a workspace now. -/
def Localized : Members → Members → Prop :=
  List.Forall₂ fun member member' =>
    member'.1 = member.1 ∧ (member'.2 = member.2 ∨ member'.2 = .str anyVersion)

/-- What repairs keep of a manifest. -/
structure Kept (manifest manifest' : Members) : Prop where
  fits : Json.Fits (.obj manifest')
  other : ∀ {name : String}, name ≠ Hygiene.EngineVersion.sectionName →
    name ∉ Manifest.dependencySections → manifest'.get? name = manifest.get? name
  stated : isStated manifest = true → isStated manifest' = true
  localized : ∀ name ∈ Manifest.dependencySections,
    Option.Rel Localized (Manifest.section? manifest name) (Manifest.section? manifest' name)

/-! ## Members that refer to workspaces -/

namespace Localized

theorem refl (members : Members) : Localized members members :=
  List.forall₂_same.mpr fun _ _ => ⟨rfl, .inl rfl⟩

theorem trans {members members' members'' : Members} (h : Localized members members')
    (h' : Localized members' members'') : Localized members members'' := by
  unfold Localized at h h' ⊢
  induction h generalizing members'' with
  | nil =>
    cases h'
    exact .nil
  | cons hm _ ih =>
    cases h' with
    | cons hm' hrest =>
      refine .cons ⟨hm'.1.trans hm.1, ?_⟩ (ih hrest)
      rcases hm'.2 with heq | heq
      · rw [heq]
        exact hm.2
      · exact .inr heq

theorem get? {members members' : Members} (h : Localized members members') (key : Label) :
    (members.get? key = none ∧ members'.get? key = none) ∨
      ∃ value value', members.get? key = some value ∧ members'.get? key = some value' ∧
        (value' = value ∨ value' = .str anyVersion) := by
  unfold Localized at h
  induction h with
  | nil => exact .inl ⟨rfl, rfl⟩
  | @cons member member' rest rest' hm _ ih =>
    obtain ⟨k, v⟩ := member
    obtain ⟨k', v'⟩ := member'
    obtain ⟨rfl, hv⟩ : k' = k ∧ _ := hm
    rw [Members.get?_cons, Members.get?_cons]
    split
    · exact .inr ⟨v, v', rfl, rfl, hv⟩
    · exact ih

/-- Giving a member the version of a workspace. -/
theorem put {members : Members} {key : Label} {value : Json} (h : members.get? key = some value) :
    Localized members (members.put key (.str anyVersion)) := by
  induction members with
  | nil => cases h
  | cons member rest ih =>
    obtain ⟨k, v⟩ := member
    rw [Members.get?_cons] at h
    unfold Members.put Association.put
    by_cases hk : k = key
    · subst hk
      rw [if_pos rfl]
      exact .cons ⟨rfl, .inr rfl⟩ (refl rest)
    · rw [if_neg (Ne.symm hk)] at h
      rw [if_neg hk]
      exact .cons ⟨rfl, .inl rfl⟩ (ih h)

theorem put_put {members members' : Members} (h : Localized members members') {key : Label}
    {value value' : Json} (hv : value' = value ∨ value' = .str anyVersion) :
    Localized (members.put key value) (members'.put key value') := by
  unfold Localized at h
  induction h with
  | nil => exact .cons ⟨rfl, hv⟩ .nil
  | @cons member member' rest rest' hm hrest ih =>
    obtain ⟨k, v⟩ := member
    obtain ⟨k', v'⟩ := member'
    obtain ⟨rfl, hkept⟩ : k' = k ∧ _ := hm
    unfold Members.put Association.put
    split
    · exact .cons ⟨rfl, hv⟩ hrest
    · exact .cons ⟨rfl, hkept⟩ ih

theorem merge {first first' second second' : Members} (h : Localized first first')
    (h' : Localized second second') : Localized (first.merge second) (first'.merge second') := by
  unfold Localized at h'
  induction h' generalizing first first' with
  | nil => exact h
  | @cons member member' rest rest' hm _ ih =>
    unfold Members.merge
    rw [List.foldl_cons, List.foldl_cons, hm.1]
    exact ih (h.put_put hm.2)

theorem plainIn_of {members members' : Members} (h : Localized members members')
    {dependency : Label} (hp : plainIn dependency members' = true) :
    plainIn dependency members = true := by
  unfold plainIn at hp ⊢
  rcases h.get? dependency with ⟨-, hnone⟩ | ⟨value, value', hv, hv', hkept⟩
  · rw [hnone] at hp
    cases hp
  · rw [hv'] at hp
    rw [hv]
    rcases hkept with rfl | rfl
    · exact hp
    · cases hp

end Localized

/-! ## Sections of a manifest -/

theorem section?_put (manifest : Members) (name other : String) (members : Members) :
    Manifest.section? (manifest.put name (.obj members)) other =
      if other = name then some members else Manifest.section? manifest other := by
  unfold Manifest.section?
  rw [Members.get?_put]
  by_cases h : other = name
  · rw [if_pos (congrArg Label.text h), if_pos h]
    rfl
  · rw [if_neg (fun heq => h (Label.text.inj heq)), if_neg h]

theorem plainUnder_of_localized {manifest manifest' : Members} {name : String} {dependency : Label}
    (h : Option.Rel Localized (Manifest.section? manifest name) (Manifest.section? manifest' name))
    (hp : plainUnder dependency manifest' name = true) :
    plainUnder dependency manifest name = true := by
  unfold plainUnder at hp ⊢
  generalize Manifest.section? manifest name = members at h ⊢
  generalize Manifest.section? manifest' name = members' at h hp
  cases h with
  | none => exact hp
  | some h => exact h.plainIn_of hp

theorem readable_section {manifest : Members} (h : Json.Readable (.obj manifest)) (name : String) :
    Json.Readable (.obj ((Manifest.section? manifest name).getD [])) := by
  unfold Manifest.section?
  cases hv : manifest.get? name with
  | none => exact .obj (fun _ hm => by cases hm) List.nodup_nil fun _ hm => by cases hm
  | some value =>
    have hread := (h.get? hv).2
    cases value with
    | obj members => exact hread
    | _ => exact .obj (fun _ hm => by cases hm) List.nodup_nil fun _ hm => by cases hm

/-- A section that gets a member still fits. -/
theorem fits_put_section {manifest : Members} (h : Json.Fits (.obj manifest)) (name : String)
    {key : Label} (hkey : Json.IsSound key) {value : Json} (hv : Json.Readable value)
    (hatom : value.nesting = 0) : Json.Fits (.obj (manifest.put name
      (.obj (((Manifest.section? manifest name).getD []).put key value)))) where
  readable := h.readable.put (Json.isSound_text name) ((readable_section h.readable name).put hkey hv)
  shallow := nesting_put_section (n := 988) h.shallow name key hatom

/-! ## What is kept -/

namespace Kept

theorem refl {manifest : Members} (h : Json.Fits (.obj manifest)) : Kept manifest manifest where
  fits := h
  other _ _ := rfl
  stated h := h
  localized name _ := by
    cases Manifest.section? manifest name with
    | none => exact .none
    | some members => exact .some (Localized.refl members)

theorem trans {manifest manifest' manifest'' : Members} (h : Kept manifest manifest')
    (h' : Kept manifest' manifest'') : Kept manifest manifest'' where
  fits := h'.fits
  other h1 h2 := (h'.other h1 h2).trans (h.other h1 h2)
  stated hs := h'.stated (h.stated hs)
  localized name hname := by
    have hfirst := h.localized name hname
    have hsecond := h'.localized name hname
    generalize Manifest.section? manifest name = members at hfirst ⊢
    generalize Manifest.section? manifest' name = members' at hfirst hsecond
    generalize Manifest.section? manifest'' name = members'' at hsecond ⊢
    cases hfirst with
    | none =>
      cases hsecond
      exact .none
    | some hfirst =>
      cases hsecond with
      | some hsecond => exact .some (hfirst.trans hsecond)

theorem plainUnder_of {manifest manifest' : Members} (h : Kept manifest manifest')
    {name : String} {dependency : Label} (hname : name ∈ Manifest.dependencySections)
    (hp : plainUnder dependency manifest' name = true) :
    plainUnder dependency manifest name = true :=
  plainUnder_of_localized (h.localized name hname) hp

end Kept

/-! ## Stating the engine -/

theorem isStated_state (manifest : Members) : isStated (Hygiene.EngineVersion.state manifest) = true := by
  unfold isStated Hygiene.EngineVersion.state
  rw [section?_put, if_pos rfl, Option.bind_some, Members.get?_put, if_pos rfl]
  rfl

theorem kept_state {manifest : Members} (h : Json.Fits (.obj manifest)) :
    Kept manifest (Hygiene.EngineVersion.state manifest) where
  fits := fits_put_section h _ (Json.isSound_text _) (.str _) rfl
  other {name} h1 h2 := by
    unfold Hygiene.EngineVersion.state
    rw [Members.get?_put, if_neg fun heq => h1 (Label.text.inj heq)]
  stated _ := isStated_state manifest
  localized name hname := by
    have hne : name ≠ Hygiene.EngineVersion.sectionName := by
      rintro rfl
      revert hname
      decide
    unfold Hygiene.EngineVersion.state
    rw [section?_put, if_neg hne]
    cases Manifest.section? manifest name with
    | none => exact .none
    | some members => exact .some (Localized.refl members)

/-! ## Referring to a workspace -/

variable {dependency : Label}

theorem localizeSection_eq (dependency : Label) (members : Members) :
    localizeSection dependency members =
      if plainIn dependency members then some (members.put dependency (.str anyVersion)) else none := by
  unfold localizeSection plainIn
  cases (members.get? dependency).bind plainVersion? with
  | none => rfl
  | some version => rfl

theorem localizeIn_eq (dependency : Label) (manifest : Members) (name : String) :
    localizeIn dependency manifest name =
      if plainUnder dependency manifest name then
        some (manifest.put name (.obj
          (((Manifest.section? manifest name).getD []).put dependency (.str anyVersion))))
      else none := by
  unfold localizeIn plainUnder
  cases Manifest.section? manifest name with
  | none => rfl
  | some members =>
    rw [Option.bind_some, localizeSection_eq, Option.any_some, Option.getD_some]
    cases plainIn dependency members with
    | false => rfl
    | true => rfl

theorem plainIn_put (dependency : Label) (members : Members) :
    plainIn dependency (members.put dependency (.str anyVersion)) = false := by
  unfold plainIn
  rw [Members.get?_put, if_pos rfl]
  rfl

theorem plainUnder_localizeIn {manifest localized : Members} {name : String}
    (h : localizeIn dependency manifest name = some localized) :
    plainUnder dependency localized name = false := by
  rw [localizeIn_eq] at h
  split at h
  · cases h
    unfold plainUnder
    rw [section?_put, if_pos rfl, Option.any_some, plainIn_put]
  · cases h

/-- A dependency with a plain version is the name of a member. -/
theorem isSound_of_plainUnder {manifest : Members} (h : Json.Fits (.obj manifest)) {name : String}
    (hplain : plainUnder dependency manifest name = true) : Json.IsSound dependency := by
  unfold plainUnder at hplain
  have hread := readable_section h.readable name
  generalize Manifest.section? manifest name = members at hplain hread
  cases members with
  | none => cases hplain
  | some members =>
    rw [Option.any_some] at hplain
    unfold plainIn at hplain
    obtain ⟨version, hversion⟩ := Option.isSome_iff_exists.mp hplain
    obtain ⟨value, hvalue, -⟩ := Option.bind_eq_some_iff.mp hversion
    exact (hread.get? hvalue).1

theorem kept_localizeIn {manifest localized : Members} {name : String}
    (h : Json.Fits (.obj manifest)) (hname : name ∈ Manifest.dependencySections)
    (hl : localizeIn dependency manifest name = some localized) : Kept manifest localized := by
  rw [localizeIn_eq] at hl
  split at hl
  · rename_i hplain
    cases hl
    have hsections : ∀ other ∈ Manifest.dependencySections,
        other ≠ Hygiene.EngineVersion.sectionName := by decide
    have hkey := isSound_of_plainUnder h hplain
    refine ⟨fits_put_section h _ hkey (.str _) rfl, ?_, ?_, ?_⟩
    · intro other _ hother
      rw [Members.get?_put, if_neg]
      intro heq
      rw [Label.text.inj heq] at hother
      exact hother hname
    · intro hstated
      unfold isStated
      rw [section?_put, if_neg fun heq => hsections name hname heq.symm]
      exact hstated
    · intro other _
      rw [section?_put]
      split
      · rename_i heq
        subst heq
        unfold plainUnder at hplain
        generalize Manifest.section? manifest other = members at hplain ⊢
        cases members with
        | none => cases hplain
        | some members =>
          rw [Option.any_some] at hplain
          unfold plainIn at hplain
          cases hv : members.get? dependency with
          | none =>
            rw [hv] at hplain
            cases hplain
          | some value => exact .some (Localized.put hv)
      · cases Manifest.section? manifest other with
        | none => exact .none
        | some members => exact .some (Localized.refl members)
  · cases hl

/-- Replaces a dependency's plain version in one more section. -/
def localizeStep (dependency : Label) (state : Members × Bool) (name : String) : Members × Bool :=
  match localizeIn dependency state.1 name with
  | some localized => (localized, true)
  | none => state

theorem localize_eq (dependency : Label) (manifest : Members) : localize dependency manifest =
    Manifest.dependencySections.foldl (localizeStep dependency) (manifest, false) := rfl

theorem kept_localizeStep (dependency : Label) {state : Members × Bool} {name : String}
    (h : Json.Fits (.obj state.1)) (hname : name ∈ Manifest.dependencySections) :
    Kept state.1 (localizeStep dependency state name).1 ∧
      plainUnder dependency (localizeStep dependency state name).1 name = false ∧
      (localizeStep dependency state name).2 = (state.2 || plainUnder dependency state.1 name) ∧
      (plainUnder dependency state.1 name = false → localizeStep dependency state name = state) := by
  unfold localizeStep
  cases hl : localizeIn dependency state.1 name with
  | none =>
    have hplain : plainUnder dependency state.1 name = false := by
      rw [localizeIn_eq] at hl
      split at hl
      · cases hl
      · rename_i hplain
        exact Bool.eq_false_iff.mpr hplain
    refine ⟨Kept.refl h, hplain, ?_, fun _ => rfl⟩
    dsimp only
    rw [hplain, Bool.or_false]
  | some localized =>
    have hplain : plainUnder dependency state.1 name = true := by
      rw [localizeIn_eq] at hl
      split at hl
      · assumption
      · cases hl
    refine ⟨kept_localizeIn h hname hl, plainUnder_localizeIn hl, ?_, fun hfalse => ?_⟩
    · dsimp only
      rw [hplain, Bool.or_true]
    · rw [hplain] at hfalse
      cases hfalse

/-- One section after the other. -/
theorem kept_localizeSteps (dependency : Label) (names : List String)
    (hnames : ∀ name ∈ names, name ∈ Manifest.dependencySections) (state : Members × Bool)
    (h : Json.Fits (.obj state.1)) :
    Kept state.1 (names.foldl (localizeStep dependency) state).1 ∧
      (∀ name ∈ names,
        plainUnder dependency (names.foldl (localizeStep dependency) state).1 name = false) ∧
      ((names.foldl (localizeStep dependency) state).2 = false →
        state.2 = false ∧ ∀ name ∈ names, plainUnder dependency state.1 name = false) ∧
      ((∀ name ∈ names, plainUnder dependency state.1 name = false) →
        names.foldl (localizeStep dependency) state = state) := by
  induction names generalizing state with
  | nil => exact ⟨Kept.refl h, fun _ hn => (by cases hn), fun hs => ⟨hs, fun _ hn => by cases hn⟩, fun _ => rfl⟩
  | cons name rest ih =>
    have hname := hnames name (List.mem_cons_self ..)
    obtain ⟨hkept, hplain, hchanged, hidle⟩ := kept_localizeStep dependency h hname
    obtain ⟨hkept', hplain', hchanged', hidle'⟩ :=
      ih (fun n hn => hnames n (List.mem_cons_of_mem name hn)) _ hkept.fits
    rw [List.foldl_cons]
    refine ⟨hkept.trans hkept', List.forall_mem_cons.mpr ⟨?_, hplain'⟩, fun hfalse => ?_,
      fun hall => ?_⟩
    · rw [Bool.eq_false_iff] at hplain ⊢
      exact fun hp => hplain (hkept'.plainUnder_of hname hp)
    · obtain ⟨hstep, hrest⟩ := hchanged' hfalse
      rw [hchanged, Bool.or_eq_false_iff] at hstep
      rw [hidle hstep.2] at hrest
      exact ⟨hstep.1, List.forall_mem_cons.mpr ⟨hstep.2, hrest⟩⟩
    · obtain ⟨hfirst, hrest⟩ := List.forall_mem_cons.mp hall
      rw [hidle hfirst] at hidle' ⊢
      exact hidle' hrest

/-! ## One repair of a manifest -/

theorem localMembers_eq (dependency : Label) (manifest : Members) :
    Amendment.localMembers dependency manifest =
      if (localize dependency manifest).2 then some (localize dependency manifest).1 else none := by
  unfold Amendment.localMembers
  generalize localize dependency manifest = outcome
  obtain ⟨localized, changed⟩ := outcome
  cases changed with
  | false => rfl
  | true => rfl

theorem localMembers_eq_none {manifest : Members} (h : Json.Fits (.obj manifest)) :
    Amendment.localMembers dependency manifest = none ↔
      ∀ name ∈ Manifest.dependencySections, plainUnder dependency manifest name = false := by
  obtain ⟨-, -, hchanged, hidle⟩ :=
    kept_localizeSteps dependency Manifest.dependencySections (fun _ hn => hn)
      (manifest, false) h
  rw [localMembers_eq, localize_eq]
  constructor
  · intro hnone
    split at hnone
    · cases hnone
    · rename_i hfalse
      exact (hchanged (Bool.eq_false_iff.mpr hfalse)).2
  · intro hall
    rw [hidle hall]
    rfl

theorem kept_localMembers {manifest localized : Members} (h : Json.Fits (.obj manifest))
    (hl : Amendment.localMembers dependency manifest = some localized) : Kept manifest localized ∧
      ∀ name ∈ Manifest.dependencySections, plainUnder dependency localized name = false := by
  obtain ⟨hkept, hplain, -, -⟩ :=
    kept_localizeSteps dependency Manifest.dependencySections (fun _ hn => hn)
      (manifest, false) h
  rw [localMembers_eq, localize_eq] at hl
  split at hl
  · cases hl
    exact ⟨hkept, hplain⟩
  · cases hl

theorem kept_engineMembers {manifest stated : Members} (h : Json.Fits (.obj manifest))
    (hs : Amendment.engineMembers manifest = some stated) :
    Kept manifest stated ∧ isStated stated = true := by
  unfold Amendment.engineMembers at hs
  split at hs
  · cases hs
  · cases hs
    exact ⟨kept_state h, isStated_state manifest⟩

/-! ## Reading a manifest that was repaired -/

theorem dependencies_eq (manifest : Members) : Manifest.dependencies manifest =
    Members.merge (Members.merge [] ((Manifest.section? manifest "dependencies").getD []))
      ((Manifest.section? manifest "devDependencies").getD []) := rfl

theorem dependencies_kept {manifest manifest' : Members} (h : Kept manifest manifest') :
    Localized (Manifest.dependencies manifest) (Manifest.dependencies manifest') := by
  have hsection : ∀ name ∈ Manifest.dependencySections,
      Localized ((Manifest.section? manifest name).getD [])
        ((Manifest.section? manifest' name).getD []) := by
    intro name hname
    have hrel := h.localized name hname
    generalize Manifest.section? manifest name = members at hrel ⊢
    generalize Manifest.section? manifest' name = members' at hrel ⊢
    cases hrel with
    | none => exact .nil
    | some hrel => exact hrel
  rw [dependencies_eq, dependencies_eq]
  exact ((Localized.refl []).merge (hsection _ (by decide))).merge (hsection _ (by decide))

end Checkup
