import Checkup.Rule.Application
import Checkup.Rule.DeadCode
import Checkup.Rule.Hygiene
import Checkup.Rule.Monorepo

/-!
# The registry of rules

The built-in rules and those of plugins, restricted by category and by id. Of rules with the same id
the first one that the restrictions leave counts.

* `id_nodup_choose`: no two chosen rules have the same id.
* `mem_of_mem_choose`: a chosen rule is one of the registry that the choice admits.
-/

namespace Checkup.Registry

/-- The built-in rules, in their order. -/
def builtIn : List Rule := Application.rules ++ Monorepo.rules ++ Hygiene.rules ++ DeadCode.rules

/-- What a plugin leads to. -/
inductive Plugin
  | rule (r : Rule)
  /-- It leads to something that is no rule. -/
  | notRule
  | unloadable (name reason : String)
  deriving Inhabited

/-- Why there is no list of rules. -/
inductive RegistryFault
  | notRule
  | unloadable (name reason : String)
  deriving DecidableEq, Repr, Inhabited

/-- The text of a fault. -/
def RegistryFault.message : RegistryFault → String
  | notRule => "Rule entry point must be a Rule subclass or factory"
  | unloadable name reason => "Failed to load rule entry point '" ++ name ++ "': " ++ reason

/-- The rule of a plugin. -/
def Plugin.rule? : Plugin → Except RegistryFault Rule
  | rule r => .ok r
  | notRule => .error .notRule
  | unloadable name reason => .error (.unloadable name reason)

/-- Which rules are asked for. No categories at all stand for every category. -/
structure Choice where
  categories : List String
  disabled : List String
  deriving DecidableEq, Repr, Inhabited

/-- The choice of all rules. -/
def Choice.everything : Choice := ⟨[], []⟩

/-- The choice with its categories in small letters. -/
def Choice.lowered (choice : Choice) : Choice :=
  { choice with categories := choice.categories.map Text.lower }

/-- The choice leaves a rule. -/
def Choice.admits (choice : Choice) (r : Rule) : Bool :=
  !choice.disabled.contains r.info.id &&
    (choice.categories.isEmpty || choice.categories.contains r.info.category.name)

/-- The rules that are left by a choice, one for each id. -/
def choose (choice : Choice) (rules : List Rule) : List Rule :=
  Rule.firstOfEach (rules.filter choice.lowered.admits)

/-- The rules of the registry with some plugins. -/
def discover (choice : Choice) (plugins : List Plugin) : Except RegistryFault (List Rule) := do
  let added ← plugins.mapM Plugin.rule?
  pure (choose choice (builtIn ++ added))

/-- The built-in rules that are left by a choice. -/
def chosen (choice : Choice) : List Rule := choose choice builtIn

/-- The built-in rule with an id. -/
def byId? (id : String) : Option Rule := builtIn.find? fun r => r.info.id = id

theorem id_nodup_choose (choice : Choice) (rules : List Rule) :
    ((choose choice rules).map fun r => r.info.id).Nodup := Rule.id_nodup_firstOfEach _

theorem mem_of_mem_choose {choice : Choice} {rules : List Rule} {r : Rule}
    (h : r ∈ choose choice rules) : r ∈ rules ∧ choice.lowered.admits r = true :=
  List.mem_filter.mp ((Rule.firstOfEach_sublist _).subset h)

end Checkup.Registry
