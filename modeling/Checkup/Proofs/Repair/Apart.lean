import Checkup.Proofs.Repair.Effect
import Checkup.Proofs.Repair.Findings

/-!
# Amendments that leave one another to do

Different amendments of one file do not do each other's work. Stating the engine leaves the
dependencies as they are, making one dependency local leaves the others, and the line of one ignored
path holds no other one.

* `wanted_lacking`, `mem_missing_extend`: the entry that a message asks for, and those that are missing
  still.
* `idle_before_manifest`, `idle_before_ignored`: what has nothing to amend after another amendment had
  nothing to amend before it.
-/

namespace Checkup

open Json (Members)
open Monorepo.WorkspaceProtocol (localizeIn localize anyVersion)
open Hygiene.EngineVersion (isStated state)
open Hygiene.GitIgnore (Entry lines extend)

/-! ## Manifests -/

variable {dependency other : Label} {manifest manifest' : Members} {name : String}

theorem section?_state (hname : name ∈ Manifest.dependencySections) :
    Manifest.section? (state manifest) name = Manifest.section? manifest name := by
  have hne : name ≠ Hygiene.EngineVersion.sectionName := by
    rintro rfl
    revert hname
    decide
  unfold state
  rw [section?_put, if_neg hne]

/-- Stating the engine leaves the dependencies as they are. -/
theorem plainUnder_state (hname : name ∈ Manifest.dependencySections) :
    plainUnder dependency (state manifest) name = plainUnder dependency manifest name := by
  unfold plainUnder
  rw [section?_state hname]

theorem plainIn_put_of_ne (hne : other ≠ dependency) (members : Members) (value : Json) :
    plainIn other (members.put dependency value) = plainIn other members := by
  unfold plainIn
  rw [Members.get?_put, if_neg hne]

/-- What holds of every manifest with a section localized holds of the localized manifest. -/
theorem localize_induction {P : Members → Prop} (hstep : ∀ {m m' name},
      name ∈ Manifest.dependencySections → localizeIn dependency m name = some m' → P m → P m')
    (h : P manifest) : P (localize dependency manifest).1 := by
  rw [localize_eq]
  suffices ∀ (names : List String) (pair : Members × Bool),
      (∀ name ∈ names, name ∈ Manifest.dependencySections) → P pair.1 →
      P (names.foldl (localizeStep dependency) pair).1 from this _ _ (fun _ hn => hn) h
  intro names
  induction names with
  | nil => exact fun _ _ h => h
  | cons name rest ih =>
    intro pair hnames h
    obtain ⟨hname, hrest⟩ := List.forall_mem_cons.mp hnames
    refine ih _ hrest ?_
    unfold localizeStep
    cases hl : localizeIn dependency pair.1 name with
    | none => exact h
    | some m' => exact hstep hname hl h

/-- Making a dependency local leaves the engine as it is. -/
theorem isStated_localize (dependency : Label) (manifest : Members) :
    isStated (localize dependency manifest).1 = isStated manifest := by
  refine localize_induction (P := fun m => isStated m = isStated manifest) ?_ rfl
  intro m m' name hname hl hm
  rw [localizeIn_eq] at hl
  split at hl
  · cases hl
    have hne : Hygiene.EngineVersion.sectionName ≠ name := by
      rintro rfl
      revert hname
      decide
    rw [← hm]
    unfold isStated
    rw [section?_put, if_neg hne]
  · cases hl

/-- Making a dependency local leaves the other ones as they are. -/
theorem plainUnder_localize (hne : other ≠ dependency) (manifest : Members) (name : String) :
    plainUnder other (localize dependency manifest).1 name = plainUnder other manifest name := by
  refine localize_induction (P := fun m => plainUnder other m name = plainUnder other manifest name)
    ?_ rfl
  intro m m' changed _ hl hm
  rw [localizeIn_eq] at hl
  split at hl
  · rename_i hplain
    cases hl
    rw [← hm]
    unfold plainUnder at hplain ⊢
    rw [section?_put]
    split
    · rename_i heq
      subst heq
      cases hs : Manifest.section? m name with
      | none =>
        rw [hs] at hplain
        cases hplain
      | some members => exact plainIn_put_of_ne hne members _
    · rfl
  · cases hl

/-! ## Ignored paths -/

/-- A text without line breaks stands before a line break or behind it. -/
theorem infix_of_line {part front back : List Char} (hpart : '\n' ∉ part)
    (h : part <:+: front ++ '\n' :: back) : part <:+: front ∨ part <:+: back := by
  obtain ⟨before, after, h⟩ := h
  rw [List.append_assoc] at h
  rcases List.append_eq_append_iff.mp h with ⟨mid, hfront, hrest⟩ | ⟨mid, hbefore, hrest⟩
  · -- the part begins before the line break
    rcases List.append_eq_append_iff.mp hrest with ⟨more, hmid, -⟩ | ⟨more, hmid, hback⟩
    · exact .inl ⟨before, more, by rw [hfront, hmid, List.append_assoc]⟩
    · cases more with
      | nil =>
        rw [List.append_nil] at hmid
        exact .inl ⟨before, [], by rw [hfront, hmid, List.append_nil]⟩
      | cons c more =>
        obtain ⟨rfl, -⟩ := List.cons.inj hback
        exact absurd (by rw [hmid]; simp) hpart
  · cases mid with
    | nil =>
      cases part with
      | nil => exact .inl (List.nil_infix)
      | cons c part =>
        rw [List.nil_append] at hrest
        obtain ⟨rfl, -⟩ := List.cons.inj hrest
        exact absurd (List.mem_cons_self ..) hpart
    | cons c mid =>
      obtain ⟨-, hback⟩ := List.cons.inj hrest
      exact .inr ⟨mid, after, (List.append_assoc ..).trans hback.symm⟩

theorem infix_of_lines {part : List Char} (hpart : '\n' ∉ part) (hne : part ≠ [])
    {entries : List Entry} (h : part <:+: (lines entries).toList) :
    ∃ e ∈ entries, part <:+: e.pattern.toList := by
  unfold lines at h
  induction entries with
  | nil => exact absurd (List.infix_nil.mp h) hne
  | cons e rest ih =>
    rw [List.map_cons, String.join_cons, String.toList_append, String.toList_append,
      List.append_assoc] at h
    rcases infix_of_line hpart h with h | h
    · exact ⟨e, List.mem_cons_self .., h⟩
    · obtain ⟨e', he', h⟩ := ih h
      exact ⟨e', List.mem_cons_of_mem _ he', h⟩

/-- What a completed file says was there before, or is in one of the new lines. -/
theorem infix_of_extend {part : List Char} (hpart : '\n' ∉ part) (hne : part ≠ []) {old : String}
    {entries : List Entry} (h : part <:+: (extend old entries).toList) :
    part <:+: old.toList ∨ ∃ e ∈ entries, part <:+: e.pattern.toList := by
  unfold extend at h
  rw [String.toList_append, String.toList_append] at h
  refine Or.imp_right (infix_of_lines hpart hne) ?_
  split at h
  · rename_i hend
    obtain ⟨front, hfront⟩ := List.reverse_prefix.mp (List.isPrefixOf_iff_prefix.mp hend)
    rw [← hfront] at h ⊢
    have hsplit : front ++ ['\n'] ++ "".toList ++ (lines entries).toList =
        front ++ '\n' :: (lines entries).toList := by simp
    rw [hsplit] at h
    exact (infix_of_line hpart h).imp_left fun h => h.trans (List.prefix_append _ _).isInfix
  · have hsplit : old.toList ++ "\n".toList ++ (lines entries).toList =
        old.toList ++ '\n' :: (lines entries).toList := by simp
    rw [hsplit] at h
    exact infix_of_line hpart h

namespace Amendment

/-- The entries of a project of some kind are among those of an application. -/
theorem mem_required {kind : Kind} {e : Entry} (he : e ∈ required kind) :
    e ∈ required .frameworkApp := by
  unfold required at he ⊢
  split at he
  · exact he
  · rw [List.append_nil] at he
    exact List.mem_append_left _ he

/-- A message on ignored paths complains of one entry only. -/
theorem eq_of_wanted {kind : Kind} {e e' : Entry} (he : e ∈ required kind) {text : String}
    (h : e' ∈ wanted kind (lacking e).message text) : e' = e := by
  have hall : ∀ e ∈ required .frameworkApp, ∀ e' ∈ required .frameworkApp,
      (lacking e).message.contains (Hygiene.GitIgnore.complaint e') = true → e' = e := by
    decide +kernel
  obtain ⟨hmissing, hcomplaint⟩ := List.mem_filter.mp h
  exact hall e (mem_required he) e' (mem_required (mem_missing.mp hmissing).1) hcomplaint

theorem nodup_required (kind : Kind) : (required kind).Nodup := by
  unfold required
  split
  · decide
  · decide

/-- A message on a missing entry asks for this entry, if it is missing still. -/
theorem wanted_lacking {kind : Kind} {old : String} {e : Entry} (he : e ∈ missing kind old) :
    wanted kind (lacking e).message old = [e] := by
  have hreq := (mem_missing.mp he).1
  have hcomplaint : (lacking e).message.contains (Hygiene.GitIgnore.complaint e) = true := by
    have hall : ∀ e ∈ required .frameworkApp,
        (lacking e).message.contains (Hygiene.GitIgnore.complaint e) = true := by decide +kernel
    exact hall e (mem_required hreq)
  have hnodup : (wanted kind (lacking e).message old).Nodup :=
    ((nodup_required kind).filter _).filter _
  refine List.perm_singleton.mp
    ((List.perm_ext_iff_of_nodup hnodup (List.nodup_singleton e)).mpr fun e' => ?_)
  rw [List.mem_singleton]
  constructor
  · exact eq_of_wanted hreq
  · rintro rfl
    exact List.mem_filter.mpr ⟨he, hcomplaint⟩

/-- An entry is on one line, and the line of another one does not stand for it. -/
theorem pattern_apart {kind : Kind} {e : Entry} (he : e ∈ required kind) :
    '\n' ∉ e.pattern.toList ∧ e.pattern.toList ≠ [] ∧
      ∀ e' ∈ required kind, e' ≠ e → ¬ e.pattern.toList <:+: e'.pattern.toList := by
  have hall : ∀ e ∈ required .frameworkApp, '\n' ∉ e.pattern.toList ∧ e.pattern.toList ≠ [] ∧
      ∀ e' ∈ required .frameworkApp, e' ≠ e → Text.contains e'.pattern e.pattern = false := by
    decide
  obtain ⟨hline, hne, hapart⟩ := hall e (mem_required he)
  refine ⟨hline, hne, fun e' he' hother hinfix => ?_⟩
  have hcontains := hapart e' (mem_required he') hother
  rw [Text.contains_iff.mpr hinfix] at hcontains
  cases hcontains

/-- What a text still lacks once entries were added to it. -/
theorem mem_missing_extend {kind : Kind} {old : String} {e : Entry} {es : List Entry}
    (he : e ∈ missing kind old) (hes : ∀ e ∈ es, e ∈ required kind) :
    e ∈ missing kind (extend old es) ↔ e ∉ es := by
  obtain ⟨hreq, hlacks⟩ := mem_missing.mp he
  obtain ⟨hline, hpattern, hapart⟩ := pattern_apart hreq
  rw [mem_missing, and_iff_right hreq, Bool.eq_false_iff, ne_eq, Text.contains_iff]
  refine not_congr ⟨fun hinfix => ?_, fun hmem =>
    (infix_lines hmem).trans (lines_infix_extend old es)⟩
  rcases infix_of_extend hline hpattern hinfix with hold | ⟨e', he', hin⟩
  · rw [Text.contains_iff.mpr hold] at hlacks
    cases hlacks
  · by_contra hnot
    have hother : e' ≠ e := by
      rintro rfl
      exact hnot he'
    exact hapart e' (hes e' he') hother hin

/-! ## What is left to do -/

variable {text : Option String} {s : String}

/-- An amendment of a manifest does no other one's work. -/
theorem idle_before_manifest {a a' : Amendment} (ha : a.Suits "package.json")
    (ha' : a'.Suits "package.json") (hne : a ≠ a') (h : a'.apply text = some s)
    (hidle : a.apply (some s) = none) : a.apply text = none := by
  rcases suits_manifest ha' with rfl | ⟨dependency, rfl⟩
  · obtain ⟨manifest, manifest', hm, he, hs, -⟩ :=
      apply_members (fun _ => rfl) (fun h he => (kept_engineMembers h he).1.fits) h
    rcases suits_manifest ha with rfl | ⟨other, rfl⟩
    · exact absurd rfl hne
    · refine localize_idle.mpr fun found hfound name hname => ?_
      rw [hm] at hfound
      cases hfound
      have hplain := localize_idle.mp hidle manifest' hs name hname
      unfold engineMembers at he
      split at he
      · cases he
      · cases he
        rwa [plainUnder_state hname] at hplain
  · obtain ⟨manifest, manifest', hm, he, hs, -⟩ :=
      apply_members (fun _ => rfl) (fun h he => (kept_localMembers h he).1.fits) h
    rw [localMembers_eq] at he
    split at he
    · cases he
      rcases suits_manifest ha with rfl | ⟨other, rfl⟩
      · refine engine_idle.mpr fun found hfound => ?_
        rw [hm] at hfound
        cases hfound
        rw [← isStated_localize dependency]
        exact engine_idle.mp hidle _ hs
      · refine localize_idle.mpr fun found hfound name hname => ?_
        rw [hm] at hfound
        cases hfound
        have hother : other ≠ dependency := fun heq => hne (by rw [heq])
        rw [← plainUnder_localize hother]
        exact localize_idle.mp hidle _ hs name hname
    · cases he

/-- The completion of ignored paths by one entry does not add another one. -/
theorem idle_before_ignored {kind : Kind} {e e' : Entry} (he : e ∈ required kind)
    (he' : e' ∈ required kind) (hne : e' ≠ e) {old : String}
    (hold : text.filter (· != "") = some old)
    (h : (ignore kind (lacking e').message).apply text = some s)
    (hidle : (ignore kind (lacking e).message).apply (some s) = none) :
    (ignore kind (lacking e).message).apply text = none := by
  obtain ⟨found, hfound, hnothing⟩ := ignore_idle.mp hidle
  obtain ⟨rfl, -⟩ : s = found ∧ _ := (filter_eq_some.mp hfound).imp_left Option.some.inj
  refine ignore_idle.mpr ⟨old, hold, List.eq_nil_iff_forall_not_mem.mpr fun entry hentry => ?_⟩
  obtain rfl := eq_of_wanted he hentry
  have hmissing := (List.mem_filter.mp hentry).1
  rcases ignore_cases h with ⟨hnone, -⟩ | ⟨old', hold', rfl⟩
  · rw [hold] at hnone
    cases hnone
  · rw [hold] at hold'
    cases hold'
    -- the entry is still missing behind the line of the other one
    have hreq : ∀ e ∈ wanted kind (lacking e').message old, e ∈ required kind := fun e hw =>
      (mem_missing.mp (List.mem_filter.mp hw).1).1
    have hstill : entry ∈ missing kind (extend old (wanted kind (lacking e').message old)) :=
      (mem_missing_extend hmissing hreq).mpr fun hw => hne (eq_of_wanted he' hw).symm
    rw [wanted_lacking hstill] at hnothing
    cases hnothing

end Amendment

end Checkup
