import Checkup.Proofs.Json.Lines
import Checkup.Proofs.Repair.Manifest

/-!
# What amendments do to a text

An amendment that is made has nothing to amend any more, whatever other amendments of the same file
follow. What an amended file says is what it said before, with the amendments on top.

* `apply_done`, `apply_idle`: an amendment with nothing to amend stays so.
* `Rewritten`: a text after any number of amendments; `Rewritten.manifest`, `Rewritten.settings`,
  `Rewritten.ignored`, `Rewritten.marked` say what it has in common with the text before.
* `not_return_apply`: amendments bring in no carriage returns.
-/

namespace Checkup

open Json (Members)

/-- The endings of files with markup. A newline at the very end of a name goes unnoticed. -/
def markupEndings : List String := [".tsx", ".jsx", ".tsx\n", ".jsx\n"]

/-- A file of this name holds markup. -/
def IsMarkup (name : String) : Prop := ∃ ending ∈ markupEndings, ending.toList <:+ name.toList

namespace Amendment

/-- The amendment is one of files with this name. -/
def Suits : Amendment → String → Prop
  | makeStrict, name => name = "tsconfig.json"
  | stateEngine, name => name = "package.json"
  | localize _, name => name = "package.json"
  | ignore _ _, name => name = ".gitignore"
  | direct, name => IsMarkup name

/-! ## Objects in files -/

theorem fits_membersOf {text : Option String} {members : Members}
    (h : membersOf text = some members) : Json.Fits (.obj members) := by
  obtain ⟨value, hvalue, hm⟩ := Option.bind_eq_some_iff.mp h
  obtain ⟨s, -, hs⟩ := Option.bind_eq_some_iff.mp hvalue
  have hfits := Json.fits_of_parse? hs
  cases value with
  | obj found =>
    cases hm
    exact hfits
  | _ => cases hm

theorem not_tooDeepIn_of_membersOf {text : Option String} {members : Members}
    (h : membersOf text = some members) : ¬ Json.TooDeepIn text := by
  obtain ⟨value, hvalue, -⟩ := Option.bind_eq_some_iff.mp h
  exact Json.not_tooDeepIn hvalue

theorem membersOf_textOf {members : Members} (h : Json.Fits (.obj members)) :
    membersOf (some (textOf members)) = some members := by
  unfold membersOf textOf
  rw [Option.bind_some, Json.parse?_eq_some.mpr h.parse_pretty]
  rfl

/-- Amending the members of an object, read back. -/
theorem apply_members {a : Amendment} {edit : Members → Option Members}
    (ha : ∀ text, a.apply text = ((membersOf text).bind edit).map textOf)
    (hedit : ∀ {members edited}, Json.Fits (.obj members) → edit members = some edited →
      Json.Fits (.obj edited)) {text : Option String} {s : String}
    (h : a.apply text = some s) : ∃ members edited, membersOf text = some members ∧
      edit members = some edited ∧ membersOf (some s) = some edited ∧ '\r' ∉ s.toList := by
  rw [ha, Option.map_eq_some_iff] at h
  obtain ⟨edited, hbind, rfl⟩ := h
  obtain ⟨members, hm, he⟩ := Option.bind_eq_some_iff.mp hbind
  have hread := hedit (fits_membersOf hm) he
  exact ⟨members, edited, hm, he, membersOf_textOf hread, Json.not_return_pretty hread.readable⟩

/-- There is no object to amend, or the edit has nothing to do. -/
theorem members_idle {a : Amendment} {edit : Members → Option Members}
    (ha : ∀ text, a.apply text = ((membersOf text).bind edit).map textOf) {text : Option String} :
    a.apply text = none ↔ ∀ members, membersOf text = some members → edit members = none := by
  rw [ha, Option.map_eq_none_iff, Option.bind_eq_none_iff]

theorem fits_strictMembers {settings edited : Members} (h : Json.Fits (.obj settings))
    (he : strictMembers settings = some edited) : Json.Fits (.obj edited) := by
  unfold strictMembers at he
  split at he
  · cases he
  · cases he
    exact fits_put_section h _ (Json.isSound_text _) (.bool true) rfl

theorem isStrict_makeStrict (settings : Members) :
    Hygiene.StrictTyping.isStrict (Hygiene.StrictTyping.makeStrict settings) = true := by
  unfold Hygiene.StrictTyping.isStrict Hygiene.StrictTyping.makeStrict Hygiene.StrictTyping.options?
  rw [Members.get?_put, if_pos rfl]
  dsimp only [Option.bind_some, Json.members?]
  rw [Members.get?_put, if_pos rfl]

theorem apply_strict {text : Option String} {s : String} (h : makeStrict.apply text = some s) :
    ∃ settings, membersOf (some s) = some settings ∧
      Hygiene.StrictTyping.isStrict settings = true ∧ '\r' ∉ s.toList := by
  obtain ⟨members, edited, -, he, hs, hreturn⟩ := apply_members (fun _ => rfl) fits_strictMembers h
  refine ⟨edited, hs, ?_, hreturn⟩
  unfold strictMembers at he
  split at he
  · cases he
  · cases he
    exact isStrict_makeStrict members

theorem apply_engine {text : Option String} {s : String} (h : stateEngine.apply text = some s) :
    ∃ manifest manifest', membersOf text = some manifest ∧ membersOf (some s) = some manifest' ∧
      Kept manifest manifest' ∧ Hygiene.EngineVersion.isStated manifest' = true ∧
      '\r' ∉ s.toList := by
  obtain ⟨manifest, manifest', hm, he, hs, hreturn⟩ :=
    apply_members (fun _ => rfl) (fun h he => (kept_engineMembers h he).1.fits) h
  obtain ⟨hkept, hstated⟩ := kept_engineMembers (fits_membersOf hm) he
  exact ⟨manifest, manifest', hm, hs, hkept, hstated, hreturn⟩

theorem apply_localize {dependency : Label} {text : Option String} {s : String}
    (h : (localize dependency).apply text = some s) :
    ∃ manifest manifest', membersOf text = some manifest ∧ membersOf (some s) = some manifest' ∧
      Kept manifest manifest' ∧ (∀ name ∈ Manifest.dependencySections,
        plainUnder dependency manifest' name = false) ∧ '\r' ∉ s.toList := by
  obtain ⟨manifest, manifest', hm, he, hs, hreturn⟩ :=
    apply_members (fun _ => rfl) (fun h he => (kept_localMembers h he).1.fits) h
  obtain ⟨hkept, hplain⟩ := kept_localMembers (fits_membersOf hm) he
  exact ⟨manifest, manifest', hm, hs, hkept, hplain, hreturn⟩

theorem strict_idle {text : Option String} : makeStrict.apply text = none ↔
    ∀ settings, membersOf text = some settings → Hygiene.StrictTyping.isStrict settings = true := by
  rw [members_idle fun _ => rfl]
  refine forall₂_congr fun settings _ => ?_
  rw [strictMembers]
  split
  · rename_i h
    exact iff_of_true rfl h
  · rename_i h
    exact iff_of_false (Option.some_ne_none _) h

theorem engine_idle {text : Option String} : stateEngine.apply text = none ↔
    ∀ manifest, membersOf text = some manifest → Hygiene.EngineVersion.isStated manifest = true := by
  rw [members_idle fun _ => rfl]
  refine forall₂_congr fun manifest _ => ?_
  rw [engineMembers]
  split
  · rename_i h
    exact iff_of_true rfl h
  · rename_i h
    exact iff_of_false (Option.some_ne_none _) h

theorem localize_idle {dependency : Label} {text : Option String} :
    (localize dependency).apply text = none ↔ ∀ manifest, membersOf text = some manifest →
      ∀ name ∈ Manifest.dependencySections, plainUnder dependency manifest name = false := by
  rw [members_idle fun _ => rfl]
  exact forall₂_congr fun manifest hm => localMembers_eq_none (fits_membersOf hm)

/-! ## Entries of ignored paths -/

theorem mem_missing {kind : Kind} {text : String} {e : Hygiene.GitIgnore.Entry} :
    e ∈ missing kind text ↔ e ∈ required kind ∧ Text.contains text e.pattern = false := by
  unfold missing
  rw [List.mem_filter, Bool.not_eq_true']

/-- A longer text lacks no more entries. -/
theorem mem_missing_of_part {kind : Kind} {text text' : String}
    (h : text.toList <:+: text'.toList) {e : Hygiene.GitIgnore.Entry} (he : e ∈ missing kind text') :
    e ∈ missing kind text := by
  rw [mem_missing] at he ⊢
  refine ⟨he.1, ?_⟩
  rw [Bool.eq_false_iff] at he ⊢
  exact fun hc => he.2 (Text.contains_iff.mpr ((Text.contains_iff.mp hc).trans h))

/-- An entry stands in the lines of the entries. -/
theorem infix_lines {entries : List Hygiene.GitIgnore.Entry} {e : Hygiene.GitIgnore.Entry}
    (h : e ∈ entries) : e.pattern.toList <:+: (Hygiene.GitIgnore.lines entries).toList := by
  unfold Hygiene.GitIgnore.lines
  induction entries with
  | nil => cases h
  | cons first rest ih =>
    rw [List.map_cons, String.join_cons, String.toList_append, String.toList_append]
    rcases List.mem_cons.mp h with rfl | h
    · rw [List.append_assoc]
      exact (List.prefix_append _ _).isInfix
    · exact (ih h).trans (List.suffix_append _ _).isInfix

theorem infix_extend (text : String) (entries : List Hygiene.GitIgnore.Entry) :
    text.toList <:+: (Hygiene.GitIgnore.extend text entries).toList := by
  unfold Hygiene.GitIgnore.extend
  rw [String.toList_append, String.toList_append, List.append_assoc]
  exact (List.prefix_append _ _).isInfix

theorem lines_infix_extend (text : String) (entries : List Hygiene.GitIgnore.Entry) :
    (Hygiene.GitIgnore.lines entries).toList <:+:
      (Hygiene.GitIgnore.extend text entries).toList := by
  unfold Hygiene.GitIgnore.extend
  rw [String.toList_append]
  exact (List.suffix_append _ _).isInfix

theorem ne_empty_of_part {part text : String} (hpart : part ≠ "")
    (h : part.toList <:+: text.toList) : text ≠ "" := by
  rintro rfl
  exact hpart (String.toList_eq_nil_iff.mp (List.infix_nil.mp h))

theorem mem_required_node_modules (kind : Kind) :
    ⟨"node_modules", "node_modules"⟩ ∈ required kind := List.mem_cons_self ..

/-- What completing a file of ignored paths comes to. -/
theorem ignore_cases {kind : Kind} {message : Label} {text : Option String} {s : String}
    (h : (ignore kind message).apply text = some s) :
    (text.filter (· != "") = none ∧ s = Hygiene.GitIgnore.lines (required kind)) ∨
      ∃ old, text.filter (· != "") = some old ∧
        s = Hygiene.GitIgnore.extend old (wanted kind message old) := by
  unfold apply at h
  dsimp only at h
  split at h
  · rename_i hnone
    exact .inl ⟨hnone, (Option.some.inj h).symm⟩
  · rename_i old hold
    refine .inr ⟨old, hold, ?_⟩
    unfold extended at h
    split at h
    · cases h
    · exact (Option.some.inj h).symm

theorem ignore_idle {kind : Kind} {message : Label} {text : Option String} :
    (ignore kind message).apply text = none ↔
      ∃ old, text.filter (· != "") = some old ∧ wanted kind message old = [] := by
  unfold apply
  dsimp only
  cases text.filter (· != "") with
  | none => exact iff_of_false (Option.some_ne_none _) fun ⟨_, h, _⟩ => by cases h
  | some old =>
    dsimp only
    unfold extended
    cases hw : wanted kind message old with
    | nil => exact iff_of_true rfl ⟨old, rfl, hw⟩
    | cons e es =>
      refine iff_of_false (Option.some_ne_none _) ?_
      rintro ⟨_, heq, hnil⟩
      cases heq
      rw [hw] at hnil
      cases hnil

theorem filter_eq_some {text : Option String} {old : String} :
    text.filter (· != "") = some old ↔ text = some old ∧ old ≠ "" := by
  rw [Option.filter_eq_some_iff, bne_iff_ne]

/-- The completed file is not empty and lacks no more than before, and nothing if it was empty. -/
theorem missing_ignore {kind : Kind} {message : Label} {text : Option String} {s : String}
    (h : (ignore kind message).apply text = some s) : s ≠ "" ∧ ∀ e ∈ missing kind s,
      ∃ old, text.filter (· != "") = some old ∧ e ∈ missing kind old ∧
        e ∉ wanted kind message old := by
  rcases ignore_cases h with ⟨-, rfl⟩ | ⟨old, hold, rfl⟩
  · have hline := infix_lines (mem_required_node_modules kind)
    refine ⟨ne_empty_of_part (by decide) hline, fun e he => ?_⟩
    obtain ⟨hreq, hlacks⟩ := mem_missing.mp he
    have hcontains := Text.contains_iff.mpr (infix_lines hreq)
    rw [hlacks] at hcontains
    cases hcontains
  · have hinfix := infix_extend old (wanted kind message old)
    refine ⟨ne_empty_of_part (filter_eq_some.mp hold).2 hinfix, fun e he => ?_⟩
    refine ⟨old, hold, mem_missing_of_part hinfix he, fun hw => ?_⟩
    have hcontains := Text.contains_iff.mpr ((infix_lines hw).trans (lines_infix_extend old _))
    rw [(mem_missing.mp he).2] at hcontains
    cases hcontains

/-- Completing a file of ignored paths once more, for this complaint or another one. -/
theorem ignore_idle_of_missing {kind kind' : Kind} {message message' : Label} {text : Option String}
    {s : String} (h : (ignore kind' message').apply text = some s)
    (hidle : (ignore kind message).apply text = none) : (ignore kind message).apply (some s) = none := by
  obtain ⟨old, hold, hw⟩ := ignore_idle.mp hidle
  obtain ⟨hne, -⟩ := missing_ignore h
  refine ignore_idle.mpr ⟨s, filter_eq_some.mpr ⟨rfl, hne⟩, ?_⟩
  rcases ignore_cases h with ⟨hnone, -⟩ | ⟨old', hold', rfl⟩
  · rw [hold] at hnone
    cases hnone
  · rw [hold] at hold'
    cases hold'
    refine List.eq_nil_iff_forall_not_mem.mpr fun e he => ?_
    obtain ⟨hm, hc⟩ := List.mem_filter.mp he
    have hmem : e ∈ wanted kind message old :=
      List.mem_filter.mpr ⟨mem_missing_of_part (infix_extend old _) hm, hc⟩
    rw [hw] at hmem
    cases hmem

theorem ignore_done {kind : Kind} {message : Label} {text : Option String} {s : String}
    (h : (ignore kind message).apply text = some s) :
    (ignore kind message).apply (some s) = none := by
  obtain ⟨hne, hlacks⟩ := missing_ignore h
  refine ignore_idle.mpr ⟨s, filter_eq_some.mpr ⟨rfl, hne⟩, ?_⟩
  refine List.eq_nil_iff_forall_not_mem.mpr fun e he => ?_
  obtain ⟨hm, hc⟩ := List.mem_filter.mp he
  obtain ⟨old, -, hold, hnot⟩ := hlacks e hm
  exact hnot (List.mem_filter.mpr ⟨hold, hc⟩)

/-! ## The client directive -/

theorem direct_cases {text : Option String} {s : String} (h : direct.apply text = some s) :
    ∃ old, text = some old ∧ s = Application.ClientDirective.directive ++ old := by
  obtain ⟨old, hold, hs⟩ := Option.bind_eq_some_iff.mp h
  refine ⟨old, hold, ?_⟩
  split at hs
  · cases hs
  · exact (Option.some.inj hs).symm

theorem hasClientMark_directive (text : String) :
    Application.hasClientMark (Application.ClientDirective.directive ++ text) = true := by
  have hmark : "\"use client\"".toList <:+: Application.ClientDirective.directive.toList :=
    Text.contains_iff.mp rfl
  unfold Application.hasClientMark Application.clientMarks
  rw [List.any_cons, Bool.or_eq_true]
  refine .inl (Text.contains_iff.mpr (hmark.trans ?_))
  rw [String.toList_append]
  exact (List.prefix_append _ _).isInfix

theorem direct_idle {text : Option String} : direct.apply text = none ↔
    ∀ s, text = some s → Application.hasClientMark s = true := by
  unfold apply
  rw [Option.bind_eq_none_iff]
  refine forall₂_congr fun s _ => ?_
  split
  · rename_i h
    exact iff_of_true rfl h
  · rename_i h
    exact iff_of_false (Option.some_ne_none _) h

/-! ## Amendments of one file -/

theorem not_isMarkup : ∀ name ∈ ["tsconfig.json", "package.json", ".gitignore"], ¬ IsMarkup name := by
  unfold IsMarkup
  decide

theorem suits_settings {a : Amendment} (h : a.Suits "tsconfig.json") : a = makeStrict := by
  cases a with
  | makeStrict => rfl
  | stateEngine => exact absurd h (by decide : "tsconfig.json" ≠ "package.json")
  | localize => exact absurd h (by decide : "tsconfig.json" ≠ "package.json")
  | ignore => exact absurd h (by decide : "tsconfig.json" ≠ ".gitignore")
  | direct => exact absurd h (not_isMarkup _ (by decide))

theorem suits_manifest {a : Amendment} (h : a.Suits "package.json") :
    a = stateEngine ∨ ∃ dependency, a = localize dependency := by
  cases a with
  | makeStrict => exact absurd h (by decide : "package.json" ≠ "tsconfig.json")
  | stateEngine => exact .inl rfl
  | localize dependency => exact .inr ⟨dependency, rfl⟩
  | ignore => exact absurd h (by decide : "package.json" ≠ ".gitignore")
  | direct => exact absurd h (not_isMarkup _ (by decide))

theorem suits_ignored {a : Amendment} (h : a.Suits ".gitignore") :
    ∃ kind message, a = ignore kind message := by
  cases a with
  | makeStrict => exact absurd h (by decide : ".gitignore" ≠ "tsconfig.json")
  | stateEngine => exact absurd h (by decide : ".gitignore" ≠ "package.json")
  | localize => exact absurd h (by decide : ".gitignore" ≠ "package.json")
  | ignore kind message => exact ⟨kind, message, rfl⟩
  | direct => exact absurd h (not_isMarkup _ (by decide))

/-- The amendments of manifests and of settings are those of JSON. -/
theorem isOfJson_of_suits {a : Amendment} {name : String}
    (hname : name = "package.json" ∨ name = "tsconfig.json") (h : a.Suits name) :
    a.isOfJson = true := by
  rcases hname with rfl | rfl
  · rcases suits_manifest h with rfl | ⟨dependency, rfl⟩
    · rfl
    · rfl
  · rw [suits_settings h]
    rfl

/-- An amendment of JSON makes an object of an object. -/
theorem apply_json {a : Amendment} (hjson : a.isOfJson = true) {text : Option String} {s : String}
    (h : a.apply text = some s) :
    (∃ members, membersOf text = some members) ∧ ∃ members, membersOf (some s) = some members := by
  cases a with
  | makeStrict =>
    obtain ⟨members, edited, hm, -, hs, -⟩ := apply_members (fun _ => rfl) fits_strictMembers h
    exact ⟨⟨members, hm⟩, edited, hs⟩
  | stateEngine =>
    obtain ⟨members, edited, hm, hs, -⟩ := apply_engine h
    exact ⟨⟨members, hm⟩, edited, hs⟩
  | localize dependency =>
    obtain ⟨members, edited, hm, hs, -⟩ := apply_localize h
    exact ⟨⟨members, hm⟩, edited, hs⟩
  | ignore => cases hjson
  | direct => cases hjson

/-- What an amendment makes is not refused by it. -/
theorem not_refuses_apply {a : Amendment} {text : Option String} {s : String}
    (h : a.apply text = some s) : ¬ a.Refuses (some s) := by
  rintro ⟨hjson, hdeep⟩
  obtain ⟨-, members, hs⟩ := apply_json hjson h
  exact not_tooDeepIn_of_membersOf hs hdeep

theorem suits_markup {name : String} (hname : IsMarkup name) {a : Amendment} (h : a.Suits name) :
    a = direct := by
  cases a with
  | direct => rfl
  | makeStrict => exact absurd (show IsMarkup "tsconfig.json" from h ▸ hname) (not_isMarkup _ (by decide))
  | stateEngine => exact absurd (show IsMarkup "package.json" from h ▸ hname) (not_isMarkup _ (by decide))
  | localize => exact absurd (show IsMarkup "package.json" from h ▸ hname) (not_isMarkup _ (by decide))
  | ignore => exact absurd (show IsMarkup ".gitignore" from h ▸ hname) (not_isMarkup _ (by decide))

/-- An amendment of a manifest keeps what repairs keep. -/
theorem apply_manifest {a : Amendment} (ha : a.Suits "package.json") {text : Option String}
    {s : String} (h : a.apply text = some s) :
    ∃ manifest manifest', membersOf text = some manifest ∧ membersOf (some s) = some manifest' ∧
      Kept manifest manifest' := by
  rcases suits_manifest ha with rfl | ⟨dependency, rfl⟩
  · obtain ⟨manifest, manifest', hm, hs, hkept, -⟩ := apply_engine h
    exact ⟨manifest, manifest', hm, hs, hkept⟩
  · obtain ⟨manifest, manifest', hm, hs, hkept, -⟩ := apply_localize h
    exact ⟨manifest, manifest', hm, hs, hkept⟩

/-- An amendment that was made has nothing to amend. -/
theorem apply_done {a : Amendment} {text : Option String} {s : String}
    (h : a.apply text = some s) : a.apply (some s) = none := by
  cases a with
  | makeStrict =>
    obtain ⟨settings, hs, hstrict, -⟩ := apply_strict h
    refine strict_idle.mpr fun found hfound => ?_
    rw [hs] at hfound
    cases hfound
    exact hstrict
  | stateEngine =>
    obtain ⟨-, manifest, -, hs, -, hstated, -⟩ := apply_engine h
    refine engine_idle.mpr fun found hfound => ?_
    rw [hs] at hfound
    cases hfound
    exact hstated
  | localize dependency =>
    obtain ⟨-, manifest, -, hs, -, hplain, -⟩ := apply_localize h
    refine localize_idle.mpr fun found hfound => ?_
    rw [hs] at hfound
    cases hfound
    exact hplain
  | ignore kind message => exact ignore_done h
  | direct =>
    obtain ⟨old, -, rfl⟩ := direct_cases h
    exact direct_idle.mpr fun found hfound => Option.some.inj hfound ▸ hasClientMark_directive old

/-- An amendment with nothing to amend has nothing to amend after another one of the file. -/
theorem apply_idle {a a' : Amendment} {name : String} (ha : a.Suits name) (ha' : a'.Suits name)
    {text : Option String} {s : String} (hidle : a.apply text = none) (h : a'.apply text = some s) :
    a.apply (some s) = none := by
  cases a with
  | makeStrict =>
    obtain rfl : name = "tsconfig.json" := ha
    obtain rfl := suits_settings ha'
    rw [hidle] at h
    cases h
  | stateEngine =>
    obtain rfl : name = "package.json" := ha
    obtain ⟨manifest, manifest', hm, hs, hkept⟩ := apply_manifest ha' h
    refine engine_idle.mpr fun found hfound => ?_
    rw [hs] at hfound
    cases hfound
    exact hkept.stated (engine_idle.mp hidle manifest hm)
  | localize dependency =>
    obtain rfl : name = "package.json" := ha
    obtain ⟨manifest, manifest', hm, hs, hkept⟩ := apply_manifest ha' h
    refine localize_idle.mpr fun found hfound name hname => ?_
    rw [hs] at hfound
    cases hfound
    have hplain := localize_idle.mp hidle manifest hm name hname
    rw [Bool.eq_false_iff] at hplain ⊢
    exact fun hp => hplain (hkept.plainUnder_of hname hp)
  | ignore kind message =>
    obtain rfl : name = ".gitignore" := ha
    obtain ⟨kind', message', rfl⟩ := suits_ignored ha'
    exact ignore_idle_of_missing h hidle
  | direct =>
    obtain rfl := suits_markup ha ha'
    rw [hidle] at h
    cases h

theorem not_return_required {kind : Kind} {e : Hygiene.GitIgnore.Entry} (h : e ∈ required kind) :
    '\r' ∉ e.pattern.toList := by
  have hentries : ∀ entry ∈ ["node_modules", ".env", ".next"], '\r' ∉ entry.toList := by decide
  refine hentries e.pattern ?_
  unfold required at h
  rcases List.mem_append.mp h with h | h
  · rcases List.mem_cons.mp h with rfl | h
    · decide
    · rw [List.mem_singleton.mp h]
      decide
  · split at h
    · rw [List.mem_singleton.mp h]
      decide
    · cases h

theorem not_return_lines {entries : List Hygiene.GitIgnore.Entry}
    (h : ∀ e ∈ entries, '\r' ∉ e.pattern.toList) :
    '\r' ∉ (Hygiene.GitIgnore.lines entries).toList := by
  unfold Hygiene.GitIgnore.lines
  induction entries with
  | nil => exact List.not_mem_nil
  | cons e rest ih =>
    obtain ⟨hfirst, hrest⟩ := List.forall_mem_cons.mp h
    rw [List.map_cons, String.join_cons, String.toList_append, String.toList_append]
    intro hmem
    rcases List.mem_append.mp hmem with hmem | hmem
    · rcases List.mem_append.mp hmem with hmem | hmem
      · exact hfirst hmem
      · revert hmem
        decide
    · exact ih hrest hmem

/-- Amendments bring in no carriage returns. -/
theorem not_return_apply {a : Amendment} {text : Option String}
    (hreturn : ∀ old, text = some old → '\r' ∉ old.toList) {s : String}
    (h : a.apply text = some s) : '\r' ∉ s.toList := by
  cases a with
  | makeStrict =>
    obtain ⟨_, _, _, hs⟩ := apply_strict h
    exact hs
  | stateEngine =>
    obtain ⟨_, _, _, _, _, _, hs⟩ := apply_engine h
    exact hs
  | localize dependency =>
    obtain ⟨_, _, _, _, _, _, hs⟩ := apply_localize h
    exact hs
  | ignore kind message =>
    rcases ignore_cases h with ⟨-, rfl⟩ | ⟨old, hold, rfl⟩
    · exact not_return_lines fun e he => not_return_required he
    · have hlines : '\r' ∉ (Hygiene.GitIgnore.lines (wanted kind message old)).toList :=
        not_return_lines fun e he =>
          not_return_required (mem_missing.mp (List.mem_filter.mp he).1).1
      unfold Hygiene.GitIgnore.extend
      rw [String.toList_append, String.toList_append]
      intro hmem
      rcases List.mem_append.mp hmem with hmem | hmem
      · rcases List.mem_append.mp hmem with hmem | hmem
        · exact hreturn old (filter_eq_some.mp hold).1 hmem
        · revert hmem
          split
          · decide
          · decide
      · exact hlines hmem
  | direct =>
    obtain ⟨old, hold, rfl⟩ := direct_cases h
    rw [String.toList_append]
    intro hmem
    rcases List.mem_append.mp hmem with hmem | hmem
    · revert hmem
      decide
    · exact hreturn old hold hmem

end Amendment

/-! ## A text after amendments -/

/-- The text after any number of amendments of some sort. -/
inductive Rewritten (A : Amendment → Prop) (text : Option String) : Option String → Prop
  | refl : Rewritten A text text
  | step {text' : Option String} {a : Amendment} {s : String} (h : Rewritten A text text')
    (ha : A a) (hs : a.apply text' = some s) : Rewritten A text (some s)

namespace Rewritten

open Amendment

variable {A : Amendment → Prop} {text text' : Option String}

/-- What had nothing to amend has nothing to amend afterwards. -/
theorem idle {name : String} (hA : ∀ a, A a → a.Suits name) (h : Rewritten A text text')
    {a : Amendment} (ha : a.Suits name) (hidle : a.apply text = none) : a.apply text' = none := by
  induction h with
  | refl => exact hidle
  | step _ ha' hs ih => exact apply_idle ha (hA _ ha') ih hs

theorem manifest (hA : ∀ a, A a → a.Suits "package.json") (h : Rewritten A text text') :
    Option.Rel Kept (membersOf text) (membersOf text') := by
  induction h with
  | refl =>
    cases hm : membersOf text with
    | none => exact .none
    | some manifest => exact .some (Kept.refl (fits_membersOf hm))
  | step _ ha hs ih =>
    obtain ⟨manifest, manifest', hm, hm', hkept⟩ := apply_manifest (hA _ ha) hs
    rw [hm] at ih
    rw [hm']
    generalize membersOf text = before at ih ⊢
    cases ih with
    | some ih => exact .some (ih.trans hkept)

/-- Amendments of JSON leave a text as readable as it was. -/
theorem tooDeepIn_iff (hA : ∀ a, A a → a.isOfJson = true) (h : Rewritten A text text') :
    Json.TooDeepIn text' ↔ Json.TooDeepIn text := by
  induction h with
  | refl => exact Iff.rfl
  | step _ ha hs ih =>
    obtain ⟨⟨members, hm⟩, members', hm'⟩ := apply_json (hA _ ha) hs
    exact iff_of_false (not_tooDeepIn_of_membersOf hm') fun hdeep =>
      not_tooDeepIn_of_membersOf hm (ih.mpr hdeep)

theorem settings (hA : ∀ a, A a → a.Suits "tsconfig.json") (h : Rewritten A text text') :
    text' = text ∨ ∃ settings, membersOf text' = some settings ∧
      Hygiene.StrictTyping.isStrict settings = true := by
  cases h with
  | refl => exact .inl rfl
  | step _ ha hs =>
    obtain rfl := suits_settings (hA _ ha)
    obtain ⟨settings, hm, hstrict, -⟩ := apply_strict hs
    exact .inr ⟨settings, hm, hstrict⟩

/-- Amendments of a file with markup set the directive at its top once. -/
theorem directed {name : String} (hname : IsMarkup name) (hA : ∀ a, A a → a.Suits name)
    (h : Rewritten A text text') : text' = text ∨ ∃ old, text = some old ∧
      text' = some (Application.ClientDirective.directive ++ old) := by
  induction h with
  | refl => exact .inl rfl
  | step _ ha hs ih =>
    obtain rfl := suits_markup hname (hA _ ha)
    obtain ⟨now, rfl, rfl⟩ := direct_cases hs
    rcases ih with heq | ⟨old, -, heq⟩
    · exact .inr ⟨now, heq.symm, rfl⟩
    · -- it is there already
      have hidle : direct.apply (some now) = none :=
        direct_idle.mpr fun found hfound => by
          rw [heq] at hfound
          exact Option.some.inj hfound ▸ hasClientMark_directive old
      rw [hs] at hidle
      cases hidle

theorem marked {name : String} (hname : IsMarkup name) (hA : ∀ a, A a → a.Suits name)
    (h : Rewritten A text text') :
    text' = text ∨ ∃ s, text' = some s ∧ Application.hasClientMark s = true := by
  rcases h.directed hname hA with rfl | ⟨old, -, rfl⟩
  · exact .inl rfl
  · exact .inr ⟨_, rfl, hasClientMark_directive old⟩

theorem ignored {kind : Kind} (hA : ∀ a, A a → ∃ message, a = ignore kind message)
    (h : Rewritten A text text') : text' = text ∨ ∃ s, text' = some s ∧ s ≠ "" ∧
      ∀ e ∈ missing kind s, ∃ old, text.filter (· != "") = some old ∧ e ∈ missing kind old := by
  induction h with
  | refl => exact .inl rfl
  | step _ ha hs ih =>
    obtain ⟨message, rfl⟩ := hA _ ha
    obtain ⟨hne, hlacks⟩ := missing_ignore hs
    refine .inr ⟨_, rfl, hne, fun e he => ?_⟩
    obtain ⟨old, hold, hm, -⟩ := hlacks e he
    rcases ih with rfl | ⟨mid, rfl, -, hmid⟩
    · exact ⟨old, hold, hm⟩
    · obtain ⟨heq, -⟩ := filter_eq_some.mp hold
      cases heq
      exact hmid e hm

end Rewritten

end Checkup
