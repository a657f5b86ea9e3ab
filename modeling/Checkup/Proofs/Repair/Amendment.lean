import Checkup.Proofs.Scan.Reading
import Checkup.Rule.Registry

/-!
# Repairs as amendments of a text

Every built-in repair reads one file, amends its text, and writes it back if there was something to
amend. It fails before that if it goes by a JSON value that is nested too deep. The file and the
amendment follow from the context and the finding, not from the tree.

* `Repairs.repair_eq`: a repair rewrites its file by its amendment.
* `repairs_or_idle`: what the repairs of the built-in rules are.
-/

namespace Checkup

/-- What a repair does to the text of a file. -/
inductive Amendment
  /-- Compiler settings get the strict option. -/
  | makeStrict
  /-- A manifest gets the default version of the engine. -/
  | stateEngine
  /-- A manifest refers to a workspace where it stated a version of it. -/
  | localize (dependency : Label)
  /-- A file of ignored paths gets the entries that a message complains of. -/
  | ignore (kind : Kind) (message : Label)
  /-- A file of code gets the client directive. -/
  | direct
  deriving DecidableEq

namespace Amendment

/-- The members of the JSON object that a text is. -/
def membersOf (text : Option String) : Option Json.Members :=
  (text.bind Json.parse?).bind Json.members?

/-- The text of an object in a file. -/
def textOf (members : Json.Members) : String := (Json.obj members).pretty ++ "\n"

/-- Settings that are not strict, made strict. -/
def strictMembers (settings : Json.Members) : Option Json.Members :=
  if Hygiene.StrictTyping.isStrict settings then none
  else some (Hygiene.StrictTyping.makeStrict settings)

/-- A manifest that states no version of the engine, with the default one. -/
def engineMembers (manifest : Json.Members) : Option Json.Members :=
  if Hygiene.EngineVersion.isStated manifest then none
  else some (Hygiene.EngineVersion.state manifest)

/-- A manifest with plain versions of a dependency, with references to the workspace instead. -/
def localMembers (dependency : Label) (manifest : Json.Members) : Option Json.Members :=
  match Monorepo.WorkspaceProtocol.localize dependency manifest with
  | (_, false) => none
  | (localized, true) => some localized

/-- The entries that the file of ignored paths of a project of some kind should have. -/
def required (kind : Kind) : List Hygiene.GitIgnore.Entry :=
  [⟨"node_modules", "node_modules"⟩, ⟨".env", ".env files"⟩] ++
    (if kind = .frameworkApp then [⟨".next", ".next build dir"⟩] else [])

/-- The required entries that a text lacks. -/
def missing (kind : Kind) (text : String) : List Hygiene.GitIgnore.Entry :=
  (required kind).filter fun e => !Text.contains text e.pattern

/-- The lacking entries that a message complains of. -/
def wanted (kind : Kind) (message : Label) (text : String) : List Hygiene.GitIgnore.Entry :=
  (missing kind text).filter fun e => message.contains (Hygiene.GitIgnore.complaint e)

/-- The text with entries added, if there are any. -/
def extended (text : String) (entries : List Hygiene.GitIgnore.Entry) : Option String :=
  match entries with
  | [] => none
  | entries => some (Hygiene.GitIgnore.extend text entries)

/-- The amended text; none if nothing is to be amended. -/
def apply : Amendment → Option String → Option String
  | makeStrict, text => ((membersOf text).bind strictMembers).map textOf
  | stateEngine, text => ((membersOf text).bind engineMembers).map textOf
  | localize dependency, text => ((membersOf text).bind (localMembers dependency)).map textOf
  | ignore kind message, text =>
    match text.filter (· != "") with
    | none => some (Hygiene.GitIgnore.lines (required kind))
    | some text => extended text (wanted kind message text)
  | direct, text =>
    text.bind fun text =>
      if Application.hasClientMark text then none else some (Application.ClientDirective.directive ++ text)

/-- The amendment goes by the JSON value of its file. -/
def isOfJson : Amendment → Bool
  | makeStrict | stateEngine | localize _ => true
  | ignore .. | direct => false

/-- The amendment goes by the JSON value of its file, and that is nested too deep. -/
def Refuses (a : Amendment) (text : Option String) : Prop := a.isOfJson = true ∧ Json.TooDeepIn text

instance (a : Amendment) (text : Option String) : Decidable (a.Refuses text) :=
  inferInstanceAs (Decidable (_ ∧ _))

/-- What can be amended is not refused. -/
theorem not_refuses {a : Amendment} {text : Option String} {s : String} (h : a.apply text = some s) :
    ¬ a.Refuses text := by
  rintro ⟨hjson, hdeep⟩
  have hnone : membersOf text = none := by
    cases hvalue : text.bind Json.parse? with
    | none =>
      unfold membersOf
      rw [hvalue]
      rfl
    | some value => exact absurd hdeep (Json.not_tooDeepIn hvalue)
  cases a with
  | makeStrict | stateEngine | localize =>
    rw [apply, hnone] at h
    cases h
  | ignore | direct => cases hjson

theorem not_refuses_none (a : Amendment) : ¬ a.Refuses none := fun ⟨_, _, h, _⟩ => by cases h

end Amendment

/-- Amends the text of a file. -/
def Context.rewrite (c : Context) (t : Tree) (file : String) (a : Amendment) : Repair :=
  if a.Refuses (c.readText? t file) then (.error (.file .tooDeep), t)
  else
    match a.apply (c.readText? t file) with
    | none => .unchanged t
    | some text => .ofWrite (c.writeText t file text)

/-- The dependency that a finding of the workspace protocol names, if it is a workspace. -/
def dependencyOf (c : Context) (f : Finding) : Option Label :=
  (Monorepo.WorkspaceProtocol.namedIn? f.message).filter
    (Monorepo.WorkspaceProtocol.names c).contains

/-- The file that a rule's repair of a finding rewrites, and how it amends it. -/
inductive Repairs (c : Context) (f : Finding) : Rule → String → Amendment → Prop
  | strict : Repairs c f Hygiene.StrictTyping.rule "tsconfig.json" .makeStrict
  | engine : Repairs c f Hygiene.EngineVersion.rule "package.json" .stateEngine
  | ignore : Repairs c f Hygiene.GitIgnore.rule ".gitignore" (.ignore c.project.kind f.message)
  | protocol {dependency : Label} (h : dependencyOf c f = some dependency) :
    Repairs c f Monorepo.WorkspaceProtocol.rule f.file (.localize dependency)
  | directive : Repairs c f Application.ClientDirective.rule f.file .direct

variable {c : Context}

/-! ## Room for amended members -/

open Json (Members nesting)

variable {n : Nat} {manifest : Members}

theorem nesting_section (h : nesting (.obj manifest) ≤ n + 2) (name : String) :
    nesting (.obj ((Manifest.section? manifest name).getD [])) ≤ n + 1 := by
  have hempty : nesting (.obj []) ≤ n + 1 := Nat.succ_le_succ (Nat.zero_le n)
  unfold Manifest.section?
  cases hv : manifest.get? name with
  | none => exact hempty
  | some value =>
    have hvalue := Json.nesting_get? h hv
    cases value with
    | obj members => exact hvalue
    | _ => exact hempty

/-- There is room for a member of a section that is no container. -/
theorem nesting_put_section (h : nesting (.obj manifest) ≤ n + 2) (name : String) (key : Label)
    {value : Json} (hv : value.nesting = 0) : nesting (.obj (manifest.put name
      (.obj (((Manifest.section? manifest name).getD []).put key value)))) ≤ n + 2 :=
  Json.nesting_put h (Json.nesting_put (nesting_section h name) (hv.trans_le (Nat.zero_le n)))

theorem nesting_localizeIn (h : nesting (.obj manifest) ≤ n + 2) {dependency : Label} {name : String}
    {localized : Members}
    (hl : Monorepo.WorkspaceProtocol.localizeIn dependency manifest name = some localized) :
    nesting (.obj localized) ≤ n + 2 := by
  unfold Monorepo.WorkspaceProtocol.localizeIn at hl
  obtain ⟨amended, hsection, rfl⟩ := Option.map_eq_some_iff.mp hl
  obtain ⟨members, hmembers, hamended⟩ := Option.bind_eq_some_iff.mp hsection
  obtain ⟨_, -, rfl⟩ := Option.map_eq_some_iff.mp hamended
  have hput := nesting_put_section h name dependency
    (rfl : nesting (.str Monorepo.WorkspaceProtocol.anyVersion) = 0)
  rwa [hmembers] at hput

theorem nesting_localize (h : nesting (.obj manifest) ≤ n + 2) (dependency : Label) :
    nesting (.obj (Monorepo.WorkspaceProtocol.localize dependency manifest).1) ≤ n + 2 := by
  unfold Monorepo.WorkspaceProtocol.localize
  generalize Manifest.dependencySections = names
  generalize false = changed
  induction names generalizing manifest changed with
  | nil => exact h
  | cons name rest ih =>
    rw [List.foldl_cons]
    dsimp only
    cases hl : Monorepo.WorkspaceProtocol.localizeIn dependency manifest name with
    | none => exact ih h changed
    | some localized => exact ih (nesting_localizeIn h hl) true

/-! ## The repairs of the rules -/

/-- Amending the members of an object in a file. -/
theorem rewrite_members {t : Tree} {file : String} {a : Amendment} (hjson : a.isOfJson = true)
    {edit : Members → Option Members}
    (ha : ∀ text, a.apply text = ((Amendment.membersOf text).bind edit).map Amendment.textOf)
    (hroom : ∀ {members edited}, nesting (.obj members) ≤ Json.maxNesting →
      edit members = some edited → nesting (.obj edited) ≤ Json.maxNesting) :
    c.rewrite t file a = Repair.byMembers c t file fun members =>
      match edit members with
      | none => .unchanged t
      | some amended => .ofWrite (c.writeJson t file (.obj amended)) := by
  rw [Repair.byMembers_eq]
  unfold Context.rewrite
  by_cases hdeep : c.IsTooDeep t file
  · rw [if_pos ⟨hjson, hdeep⟩, if_pos hdeep]
  · rw [if_neg fun h => hdeep h.2, if_neg hdeep, ha]
    have hread : c.readMembers? t file = Amendment.membersOf (c.readText? t file) := rfl
    rw [← hread]
    cases hmembers : c.readMembers? t file with
    | none => rfl
    | some members =>
      dsimp only [Option.bind_some]
      cases hedit : edit members with
      | none => rfl
      | some amended =>
        -- the members come from a text, so there is room for them
        obtain ⟨value, hvalue, hobj⟩ := Option.bind_eq_some_iff.mp hmembers
        obtain ⟨text, -, htext⟩ := Option.bind_eq_some_iff.mp hvalue
        have hfits := (Json.fits_of_parse? htext).shallow
        have hshallow : nesting (.obj members) ≤ Json.maxNesting := by
          cases value with
          | obj found =>
            cases hobj
            exact hfits
          | _ => cases hobj
        have hwrite : c.writeJson t file (.obj amended) =
            c.writeText t file (Amendment.textOf amended) :=
          if_neg (Nat.not_lt.mpr (hroom hshallow hedit))
        dsimp only [Option.map_some]
        rw [hwrite]

theorem rewrite_strict {t : Tree} {file : String} : c.rewrite t file .makeStrict =
    Repair.byMembers c t file fun settings =>
      match Amendment.strictMembers settings with
      | none => .unchanged t
      | some amended => .ofWrite (c.writeJson t file (.obj amended)) := by
  refine rewrite_members rfl (fun _ => rfl) fun {members _} hmembers h => ?_
  unfold Amendment.strictMembers at h
  split at h
  · cases h
  · cases h
    exact nesting_put_section (n := 988) hmembers _ _ rfl

theorem rewrite_engine {t : Tree} {file : String} : c.rewrite t file .stateEngine =
    Repair.byMembers c t file fun manifest =>
      match Amendment.engineMembers manifest with
      | none => .unchanged t
      | some amended => .ofWrite (c.writeJson t file (.obj amended)) := by
  refine rewrite_members rfl (fun _ => rfl) fun {members _} hmembers h => ?_
  unfold Amendment.engineMembers at h
  split at h
  · cases h
  · cases h
    exact nesting_put_section (n := 988) hmembers _ _ rfl

theorem rewrite_localize {t : Tree} {file : String} (dependency : Label) :
    c.rewrite t file (.localize dependency) = Repair.byMembers c t file fun manifest =>
      match Amendment.localMembers dependency manifest with
      | none => .unchanged t
      | some amended => .ofWrite (c.writeJson t file (.obj amended)) := by
  refine rewrite_members rfl (fun _ => rfl) fun {members _} hmembers h => ?_
  have hroom := nesting_localize (n := 988) hmembers dependency
  unfold Amendment.localMembers at h
  generalize Monorepo.WorkspaceProtocol.localize dependency members = outcome at h hroom
  obtain ⟨localized, changed⟩ := outcome
  cases changed
  · cases h
  · cases h
    exact hroom

theorem fix_strict (f : Finding) (t : Tree) : Hygiene.StrictTyping.fix c t f =
    c.rewrite t "tsconfig.json" .makeStrict := by
  rw [rewrite_strict]
  unfold Hygiene.StrictTyping.fix Hygiene.StrictTyping.fileName
  congr 1
  funext settings
  unfold Amendment.strictMembers
  split <;> rfl

theorem fix_engine (f : Finding) (t : Tree) : Hygiene.EngineVersion.fix c t f =
    c.rewrite t "package.json" .stateEngine := by
  rw [rewrite_engine]
  unfold Hygiene.EngineVersion.fix Manifest.fileName
  congr 1
  funext manifest
  unfold Amendment.engineMembers
  split <;> rfl

theorem fix_protocol (f : Finding) (t : Tree) : Monorepo.WorkspaceProtocol.fix c t f =
    match dependencyOf c f with
    | none => .unchanged t
    | some dependency => c.rewrite t f.file (.localize dependency) := by
  unfold Monorepo.WorkspaceProtocol.fix dependencyOf
  cases Monorepo.WorkspaceProtocol.namedIn? f.message with
  | none => rfl
  | some dependency =>
    dsimp only
    rw [Option.filter_some]
    cases (Monorepo.WorkspaceProtocol.names c).contains dependency with
    | false => rfl
    | true =>
      rw [Bool.not_true, if_neg Bool.false_ne_true, if_pos rfl]
      dsimp only
      rw [rewrite_localize]
      congr 1
      funext manifest
      unfold Amendment.localMembers
      generalize Monorepo.WorkspaceProtocol.localize dependency manifest = outcome
      obtain ⟨localized, changed⟩ := outcome
      cases changed <;> rfl

theorem fix_ignore (f : Finding) (t : Tree) : Hygiene.GitIgnore.fix c t f =
    c.rewrite t ".gitignore" (.ignore c.project.kind f.message) := by
  have hread : c.readNonempty? t ".gitignore" = (c.readText? t ".gitignore").filter (· != "") := rfl
  unfold Hygiene.GitIgnore.fix Hygiene.GitIgnore.fileName Context.rewrite
  rw [if_neg fun h => Bool.false_ne_true h.1, Amendment.apply, ← hread]
  cases c.readNonempty? t ".gitignore" with
  | none => rfl
  | some text =>
    have hwanted : (Hygiene.GitIgnore.missing c.project text).filter
        (fun e => f.message.contains (Hygiene.GitIgnore.complaint e)) =
        Amendment.wanted c.project.kind f.message text := rfl
    dsimp only
    rw [hwanted]
    cases Amendment.wanted c.project.kind f.message text with
    | nil => rfl
    | cons e es => rfl

theorem fix_directive (f : Finding) (t : Tree) : Application.ClientDirective.fix c t f =
    c.rewrite t f.file .direct := by
  unfold Application.ClientDirective.fix Context.rewrite
  rw [if_neg fun h => Bool.false_ne_true h.1, Amendment.apply]
  cases c.readText? t f.file with
  | none => rfl
  | some text =>
    dsimp only [Option.bind_some]
    split
    · rfl
    · rfl

/-- A repair rewrites its file by its amendment. -/
theorem Repairs.repair_eq {f : Finding} {r : Rule} {file : String} {a : Amendment}
    (h : Repairs c f r file a) (t : Tree) : r.repair c t f = c.rewrite t file a := by
  cases h with
  | strict => exact fix_strict f t
  | engine => exact fix_engine f t
  | ignore => exact fix_ignore f t
  | protocol h =>
    have hfix := fix_protocol (c := c) f t
    rw [h] at hfix
    exact hfix
  | directive => exact fix_directive f t

/-- The built-in rules with repairs. -/
def Registry.fixing : List Rule :=
  [Application.ClientDirective.rule, Monorepo.WorkspaceProtocol.rule, Hygiene.StrictTyping.rule,
    Hygiene.EngineVersion.rule, Hygiene.GitIgnore.rule]

theorem builtIn_of_fixing {r : Rule} (hr : r ∈ Registry.fixing) : r ∈ Registry.builtIn := by
  have hfilter : Registry.builtIn.filter Rule.canFix = Registry.fixing := rfl
  rw [← hfilter] at hr
  exact (List.mem_filter.mp hr).1

theorem mem_fixing {r : Rule} (hr : r ∈ Registry.builtIn) (hfix : r.canFix = true) :
    r ∈ Registry.fixing := by
  have hfilter : Registry.builtIn.filter Rule.canFix = Registry.fixing := rfl
  rw [← hfilter]
  exact List.mem_filter.mpr ⟨hr, hfix⟩

/-- Every repair rewrites a file, but for one that finds no dependency in the message. -/
theorem repairs_or_idle {r : Rule} (hr : r ∈ Registry.fixing) (f : Finding) :
    (∃ file a, Repairs c f r file a) ∨ ∀ t, r.repair c t f = .unchanged t := by
  unfold Registry.fixing at hr
  simp only [List.mem_cons, List.not_mem_nil, or_false] at hr
  rcases hr with rfl | rfl | rfl | rfl | rfl
  · exact .inl ⟨_, _, .directive⟩
  · cases hd : dependencyOf c f with
    | some dependency => exact .inl ⟨_, _, .protocol hd⟩
    | none =>
      refine .inr fun t => ?_
      have hfix := fix_protocol (c := c) f t
      rw [hd] at hfix
      exact hfix
  · exact .inl ⟨_, _, .strict⟩
  · exact .inl ⟨_, _, .engine⟩
  · exact .inl ⟨_, _, .ignore⟩

end Checkup
