import Checkup.Rule.Registry
import Mathlib.Data.List.Nodup
import Mathlib.Data.List.Perm.Subperm

/-!
# Choosing rules and telling rules of one id apart

Of rules that share an id the registry keeps the first one. It looks for it among the rules that the
choice leaves, so a rule comes up under the id of another one when the choice drops the other. Choosing
rules is then no restriction of the whole registry.

* `Rule.mem_firstOfEach_iff`: the rules that are kept are the first ones of their ids.
* `Rule.firstOfEach_filter_iff`: when a restriction may as well come after.
* `Registry.discover_restricted`: what a choice discovers, and when it restricts the registry.
* `Registry.discover_namesake`: a plugin under the id of a built-in rule.
-/

namespace Checkup

namespace Rule

variable {rules : List Rule} {keep : Rule → Bool} {r first : Rule} {id : String}

/-- The first rule with an id. -/
def first? (rules : List Rule) (id : String) : Option Rule :=
  rules.find? fun r => decide (r.info.id = id)

theorem id_of_first? (h : first? rules id = some r) : r.info.id = id := by
  unfold first? at h
  simpa using List.find?_some h

theorem exists_first? (h : r ∈ rules) : ∃ first, first? rules r.info.id = some first := by
  refine Option.isSome_iff_exists.mp (List.find?_isSome.mpr ⟨r, h, ?_⟩)
  exact decide_eq_true rfl

/-- The first rule of an id stays the first one of the rules that are kept with it. -/
theorem first?_filter (h : first? rules id = some first) (hkeep : keep first = true) :
    first? (rules.filter keep) id = some first := by
  obtain ⟨hid, before, after, rfl, hbefore⟩ := List.find?_eq_some_iff_append.mp h
  refine List.find?_eq_some_iff_append.mpr
    ⟨hid, before.filter keep, after.filter keep, ?_, fun other hother => ?_⟩
  · rw [List.filter_append, List.filter_cons_of_pos hkeep]
  · exact hbefore other (List.mem_filter.mp hother).1

/-- The rules that are kept are the first ones of their ids. -/
theorem mem_firstOfEach_iff : r ∈ firstOfEach rules ↔ first? rules r.info.id = some r := by
  induction rules with
  | nil => exact iff_of_false List.not_mem_nil fun h => by cases h
  | cons head rest ih =>
    rw [firstOfEach, List.mem_cons, List.mem_filter, bne_iff_ne, ih]
    unfold first?
    by_cases hid : head.info.id = r.info.id
    · rw [List.find?_cons_of_pos (by simpa using hid), Option.some.injEq]
      refine ⟨fun h => ?_, fun h => .inl h.symm⟩
      rcases h with rfl | ⟨-, hne⟩
      · rfl
      · exact absurd hid.symm hne
    · rw [List.find?_cons_of_neg (by simpa using hid)]
      refine ⟨fun h => ?_, fun h => .inr ⟨h, Ne.symm hid⟩⟩
      rcases h with rfl | ⟨h, -⟩
      · exact absurd rfl hid
      · exact h

/-- What a restriction leaves of the first rules are first rules of what it leaves. -/
theorem filter_firstOfEach_sublist (keep : Rule → Bool) (rules : List Rule) :
    ((firstOfEach rules).filter keep).Sublist (firstOfEach (rules.filter keep)) := by
  induction rules with
  | nil => exact List.Sublist.refl _
  | cons head rest ih =>
    rw [firstOfEach]
    cases hkeep : keep head with
    | true =>
      rw [List.filter_cons_of_pos hkeep, List.filter_cons_of_pos hkeep, firstOfEach, List.filter_comm]
      exact (ih.filter _).cons_cons head
    | false =>
      rw [List.filter_cons_of_neg (by simp [hkeep]), List.filter_cons_of_neg (by simp [hkeep])]
      exact (List.filter_sublist.filter keep).trans ih

/-- The first rules of a restriction are the restriction of the first rules if and only if no rule that
is kept comes behind a namesake that is not. -/
theorem firstOfEach_filter_iff :
    firstOfEach (rules.filter keep) = (firstOfEach rules).filter keep ↔
      ∀ r ∈ rules, keep r = true → ∀ first, first? rules r.info.id = some first →
        keep first = true := by
  constructor
  · intro heq r hr hkeep first hfirst
    obtain ⟨found, hfound⟩ := exists_first? (List.mem_filter.mpr ⟨hr, hkeep⟩)
    have hid := id_of_first? hfound
    rw [← hid, ← mem_firstOfEach_iff, heq, List.mem_filter, mem_firstOfEach_iff, hid, hfirst,
      Option.some.injEq] at hfound
    rw [hfound.1]
    exact hfound.2
  · intro hall
    refine ((filter_firstOfEach_sublist keep rules).eq_of_length_le ?_).symm
    have hnodup := List.Nodup.of_map _ (id_nodup_firstOfEach (rules.filter keep))
    refine (hnodup.subperm fun r hr => ?_).length_le
    obtain ⟨hmem, hkeep⟩ := List.mem_filter.mp ((firstOfEach_sublist _).subset hr)
    obtain ⟨first, hfirst⟩ := exists_first? hmem
    have hsame := first?_filter hfirst (hall r hmem hkeep first hfirst)
    rw [mem_firstOfEach_iff.mp hr, Option.some.injEq] at hsame
    exact List.mem_filter.mpr ⟨mem_firstOfEach_iff.mpr (hsame ▸ hfirst), hkeep⟩

end Rule

namespace Registry

/-! ## Choices -/

/-- A choice leaves a rule that is not disabled and has one of the categories in small letters, if there
are any. -/
theorem admits_lowered_iff {choice : Choice} {r : Rule} : choice.lowered.admits r = true ↔
    r.info.id ∉ choice.disabled ∧
      (choice.categories = [] ∨ r.info.category.name ∈ choice.categories.map Text.lower) := by
  unfold Choice.admits Choice.lowered
  rw [Bool.and_eq_true, Bool.or_eq_true, Bool.not_eq_true', ← Bool.not_eq_true,
    List.contains_iff_mem, List.contains_iff_mem, List.isEmpty_iff, List.map_eq_nil_iff]

theorem discover_rules (choice : Choice) (rules : List Rule) :
    discover choice (rules.map .rule) = .ok (choose choice (builtIn ++ rules)) := by
  have hrules : (rules.map Plugin.rule).mapM Plugin.rule? = .ok rules := by
    induction rules with
    | nil => rfl
    | cons r rest ih =>
      rw [List.map_cons, List.mapM_cons, ih]
      rfl
  unfold discover
  rw [hrules]
  rfl

theorem choose_everything (rules : List Rule) :
    choose .everything rules = Rule.firstOfEach rules := by
  unfold choose
  rw [List.filter_eq_self.mpr fun r _ => admits_lowered_iff.mpr ⟨List.not_mem_nil, .inl rfl⟩]

/-- Rules are discovered with any plugins that are rules. Each discovered rule is the first one of its
id among those that the choice leaves. In their order they hold all rules of the whole registry that the
choice leaves, and there are others if and only if the first rule of some id is left out for its category
and a later one is not. -/
theorem discover_restricted (choice : Choice) (rules : List Rule) : ∃ all chosen,
    discover .everything (rules.map .rule) = .ok all ∧
    discover choice (rules.map .rule) = .ok chosen ∧
    chosen.Sublist (builtIn ++ rules) ∧
    (∀ r, r ∈ chosen ↔
      Rule.first? ((builtIn ++ rules).filter choice.lowered.admits) r.info.id = some r) ∧
    (all.filter choice.lowered.admits).Sublist chosen ∧
    (chosen = all.filter choice.lowered.admits ↔
      ∀ r ∈ builtIn ++ rules, choice.lowered.admits r = true →
        ∀ first, Rule.first? (builtIn ++ rules) r.info.id = some first →
          choice.categories = [] ∨ first.info.category.name ∈ choice.categories.map Text.lower) := by
  refine ⟨_, _, discover_rules .everything rules, discover_rules choice rules,
    (Rule.firstOfEach_sublist _).trans List.filter_sublist, fun r => Rule.mem_firstOfEach_iff, ?_, ?_⟩
  · rw [choose_everything]
    exact Rule.filter_firstOfEach_sublist _ _
  · rw [choose_everything]
    refine Rule.firstOfEach_filter_iff.trans (forall₂_congr fun r _ => forall_congr' fun hr =>
      forall₂_congr fun first hfirst => ?_)
    -- namesakes are disabled together, so it is the category that tells them apart
    rw [admits_lowered_iff, Rule.id_of_first? hfirst, and_iff_right (admits_lowered_iff.mp hr).1]

/-- A plugin with the id of a built-in rule and another category. -/
def namesake : Rule :=
  .ofCheck ⟨"nextjs/link-component", "Links", .turbo, .warning, "", "", [.monorepo], ""⟩ fun _ _ => []

/-- The whole registry has the built-in rule under the id of the plugin, and the category of the plugin
has the plugin under it. -/
theorem discover_namesake : ∃ all chosen, discover .everything [.rule namesake] = .ok all ∧
    discover ⟨["turbo"], []⟩ [.rule namesake] = .ok chosen ∧
    (all.filter fun r => r.info.id = namesake.info.id).map (·.info.category) = [.nextjs] ∧
    (chosen.filter fun r => r.info.id = namesake.info.id).map (·.info.category) = [.turbo] ∧
    chosen ≠ all.filter (Choice.admits ⟨["turbo"], []⟩) := by
  refine ⟨_, _, discover_rules _ [namesake], discover_rules _ [namesake], by decide +kernel,
    by decide +kernel, fun heq => ?_⟩
  have hids := congrArg (List.map fun r => r.info.id) heq
  revert hids
  decide +kernel

end Registry

end Checkup
