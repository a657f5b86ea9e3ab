import Checkup.Run.Basic
import Mathlib.Data.List.Basic
import Mathlib.Data.List.Induction
import Mathlib.Data.List.Nodup
import Mathlib.Data.List.Perm.Basic

/-!
# The results of the rules

What the checks find is told in two ways: in one list, check by check, and rule by rule under the
ids of the rules. The results are gathered in one pass over the checks, in which several scan roots
and several rules of one id may come in any order, and a check may fail. No finding is lost on the
way, and none is added.

* `Gathered`: the results that belong to some outcomes; `Gathered.addOutcome` is one step.
* `mem_results`, `rules_results`, `perm_findings_results`: the results of all outcomes.
* `results_of_visit`: the results of a run and its list of findings.
-/

namespace Checkup

namespace Association

variable {κ α β : Type} [BEq κ] [LawfulBEq κ] [DecidableEq κ]

omit [BEq κ] [LawfulBEq κ] in
/-- An entry after a put is the new one, or an old one under another key. -/
theorem mem_put {entries : List (κ × α)} {key : κ} {value : α} (hkeys : (entries.map Prod.fst).Nodup)
    {entry : κ × α} (h : entry ∈ put entries key value) :
    entry = (key, value) ∨ entry ∈ entries ∧ entry.1 ≠ key := by
  induction entries with
  | nil => exact .inl (by simpa [put] using h)
  | cons first rest ih =>
    obtain ⟨k, v⟩ := first
    obtain ⟨hk, hrest⟩ := List.nodup_cons.mp hkeys
    by_cases heq : k = key
    · subst heq
      rw [put, if_pos rfl] at h
      rcases List.mem_cons.mp h with h | h
      · exact .inl h
      · exact .inr ⟨List.mem_cons_of_mem _ h, fun heq => hk (List.mem_map.mpr ⟨entry, h, heq⟩)⟩
    · rw [put, if_neg heq] at h
      rcases List.mem_cons.mp h with rfl | h
      · exact .inr ⟨List.mem_cons_self .., heq⟩
      · rcases ih hrest h with h | ⟨hmem, hne⟩
        · exact .inl h
        · exact .inr ⟨List.mem_cons_of_mem _ hmem, hne⟩

/-- What a put adds to the value of a key is added to all values together. -/
theorem perm_flatMap_put {f : α → List β} {entries : List (κ × α)} {key : κ} {value : α}
    {added : List β} (h : f value = ((entries.lookup key).map f).getD [] ++ added) :
    ((put entries key value).flatMap fun entry => f entry.2).Perm
      ((entries.flatMap fun entry => f entry.2) ++ added) := by
  induction entries with
  | nil => simp [put, h]
  | cons first rest ih =>
    obtain ⟨k, v⟩ := first
    by_cases heq : k = key
    · subst heq
      simp only [List.lookup_cons_self, Option.map_some, Option.getD_some] at h
      simp only [put, if_true, List.flatMap_cons, h, List.append_assoc]
      exact List.perm_append_comm.append_left _
    · rw [lookup_cons_of_ne (Ne.symm heq)] at h
      simp only [put, heq, if_false, List.flatMap_cons, List.append_assoc]
      exact (ih h).append_left _

end Association

namespace Run

/-- The outcomes of the rules with an id. -/
def ofId (os : List Outcome) (id : String) : List Outcome := os.filter fun o => o.rule.info.id = id

/-- The result that the rules with an id have in some outcomes. Its name and its category are those
of the first of these rules. -/
structure IsResult (os : List Outcome) (id : String) (r : RuleResult) : Prop where
  rule : r.rule = id
  described : ∃ o, (ofId os id).head? = some o ∧ r.name = o.rule.info.name ∧
    r.category = o.rule.info.category
  findings : r.findings = findings (ofId os id)
  passed : r.passed = true ↔ r.findings = []

/-- The results under the ids of the rules are those of some outcomes, in the order in which the ids
come up. -/
structure Gathered (os : List Outcome) (entries : List (String × RuleResult)) : Prop where
  ids : entries.map Prod.fst = (os.map fun o => o.rule.info.id).eraseDups
  isResult : ∀ entry ∈ entries, IsResult os entry.1 entry.2
  findings : (entries.flatMap fun entry => entry.2.findings).Perm (findings os)

variable {os : List Outcome} {o : Outcome} {id : String} {r : RuleResult}
  {entries : List (String × RuleResult)}

/-! ## One outcome more -/

theorem findings_concat (os : List Outcome) (o : Outcome) :
    findings (os ++ [o]) = findings os ++ o.reported := by
  simp [findings]

theorem ofId_concat_self (os : List Outcome) (o : Outcome) :
    ofId (os ++ [o]) o.rule.info.id = ofId os o.rule.info.id ++ [o] := by
  simp [ofId]

theorem ofId_concat_of_ne (h : o.rule.info.id ≠ id) : ofId (os ++ [o]) id = ofId os id := by
  simp [ofId, h]

theorem ofId_eq_nil (h : id ∉ os.map fun o => o.rule.info.id) : ofId os id = [] := by
  rw [ofId, List.filter_eq_nil_iff]
  intro o ho heq
  exact h (List.mem_map.mpr ⟨o, ho, by simpa using heq⟩)

namespace IsResult

theorem concat_of_ne (h : IsResult os id r) (hne : o.rule.info.id ≠ id) :
    IsResult (os ++ [o]) id r := by
  obtain ⟨hrule, hdescribed, hfindings, hpassed⟩ := h
  rw [← ofId_concat_of_ne hne] at hdescribed hfindings
  exact ⟨hrule, hdescribed, hfindings, hpassed⟩

theorem concat_self (h : IsResult os o.rule.info.id r) :
    IsResult (os ++ [o]) o.rule.info.id (r.add o.reported) := by
  obtain ⟨first, hfirst, hname, hcategory⟩ := h.described
  refine ⟨h.rule, ⟨first, ?_, hname, hcategory⟩, ?_, ?_⟩
  · rw [ofId_concat_self, List.head?_append, hfirst, Option.some_or]
  · rw [ofId_concat_self, findings_concat, ← h.findings]
    rfl
  · simp [RuleResult.add, h.passed]

/-- The result of a rule begins with the first outcome of its id. -/
theorem first (h : o.rule.info.id ∉ os.map fun o => o.rule.info.id) :
    IsResult (os ++ [o]) o.rule.info.id ((RuleResult.blank o.rule.info).add o.reported) := by
  have hnone := ofId_eq_nil h
  refine ⟨rfl, ⟨o, ?_, rfl, rfl⟩, ?_, ?_⟩
  · rw [ofId_concat_self, hnone]
    rfl
  · simp [ofId_concat_self, hnone, RuleResult.add, RuleResult.blank, Run.findings]
  · simp [RuleResult.add, RuleResult.blank]

end IsResult

theorem nodup_eraseDups (ids : List String) : ids.eraseDups.Nodup := by
  induction ids using List.reverseRecOn with
  | nil => simp
  | append_singleton ids id ih =>
    by_cases hid : id ∈ ids
    · simpa [List.eraseDups_append, List.removeAll, hid] using ih
    · have hne : ∀ other ∈ ids, ¬ other = id := fun other hother heq => hid (heq ▸ hother)
      simpa [List.eraseDups_append, List.removeAll, hid, List.nodup_append, List.eraseDups_cons]
        using ⟨ih, hne⟩

namespace Gathered

theorem mem_ids (h : Gathered os entries) {id : String} :
    id ∈ entries.map Prod.fst ↔ id ∈ os.map fun o => o.rule.info.id := by
  rw [h.ids, List.mem_eraseDups]

theorem nil : Gathered [] [] := ⟨rfl, by simp, by simp [Run.findings]⟩

/-- One outcome more keeps the results in step with the outcomes. -/
theorem addOutcome (h : Gathered os entries) (o : Outcome) :
    Gathered (os ++ [o]) (addOutcome entries o) := by
  have hkeys : (entries.map Prod.fst).Nodup := h.ids ▸ nodup_eraseDups _
  unfold Run.addOutcome
  dsimp only
  constructor
  · rw [Association.keys_put, List.map_append, List.eraseDups_append, h.ids]
    by_cases hid : o.rule.info.id ∈ os.map fun o => o.rule.info.id
    · rw [if_pos (List.mem_eraseDups.mpr hid)]
      simp [List.removeAll, List.mem_map.mp hid]
    · rw [if_neg (mt List.mem_eraseDups.mp hid)]
      simp [List.removeAll, List.mem_map.not.mp hid, List.eraseDups_cons]
  · intro entry hentry
    rcases Association.mem_put hkeys hentry with rfl | ⟨hentry, hne⟩
    · -- Without an entry for the id so far, the outcome is the first of its id.
      cases hlookup : entries.lookup o.rule.info.id with
      | none =>
        refine .first fun hid => ?_
        obtain ⟨⟨id, r⟩, hmem, rfl⟩ := List.mem_map.mp (h.mem_ids.mpr hid)
        simpa using List.lookup_eq_none_iff.mp hlookup _ hmem
      | some r => exact (h.isResult _ (Association.mem_of_lookup hlookup)).concat_self
    · exact (h.isResult entry hentry).concat_of_ne (Ne.symm hne)
  · rw [findings_concat]
    refine (Association.perm_flatMap_put ?_).trans (h.findings.append_right _)
    cases entries.lookup o.rule.info.id <;> simp [RuleResult.add, RuleResult.blank]

end Gathered

/-! ## All outcomes -/

/-- The results after some outcomes are in step with them. -/
theorem gathered_foldl (os : List Outcome) : Gathered os (os.foldl addOutcome []) := by
  induction os using List.reverseRecOn with
  | nil => exact .nil
  | append_singleton os o ih =>
    rw [List.foldl_append]
    exact ih.addOutcome o

theorem mem_results {r : RuleResult} (h : r ∈ results os) : IsResult os r.rule r := by
  obtain ⟨entry, hentry, rfl⟩ := List.mem_map.mp h
  have hresult := (gathered_foldl os).isResult entry hentry
  rwa [hresult.rule]

/-- There is one result for each id, in the order in which the ids come up. -/
theorem rules_results (os : List Outcome) :
    (results os).map (·.rule) = (os.map fun o => o.rule.info.id).eraseDups := by
  rw [← (gathered_foldl os).ids, results, List.map_map]
  exact List.map_congr_left fun entry hentry => ((gathered_foldl os).isResult entry hentry).rule

theorem perm_findings_results (os : List Outcome) :
    ((results os).flatMap (·.findings)).Perm (findings os) := by
  rw [results, List.flatMap_map]
  exact (gathered_foldl os).findings

/-! ## The results of a run -/

/-- The outcomes are those of the checks that the plan asks for, whatever these come to. -/
def Visit.Checks (v : Visit) : Prop := (v.outcomes.map fun o => (o.root, o.rule)) = v.plan.pairs

theorem mem_pairs_iff {p : Plan} {pair : ScanRoot × Rule} : pair ∈ p.pairs ↔
    pair.1 ∈ p.roots ∧ pair.2 ∈ p.rules ∧ pair.2.info.applies pair.1.kind = true := by
  obtain ⟨root, rule⟩ := pair
  simp [Plan.pairs]

theorem checks_of_visit {given : Option (List Rule)} {t t' : Tree} {current : List String}
    {path : String} {options : Options} {v : Visit}
    (h : visit given t current path options = (.ok v, t')) : v.Checks := by
  have houtcomes : ∀ (p : Plan) attempts, Visit.Checks ⟨p, outcomes p t, attempts⟩ := by
    intro p attempts
    simp [Visit.Checks, outcomes, Function.comp_def]
  unfold visit at h
  split at h
  · simp at h
  · split at h
    all_goals
      simp only [Prod.mk.injEq, Except.ok.injEq] at h
      exact h.1 ▸ houtcomes _ _

/-- The results of a run have one entry for each id of a rule that applies to some scan root, in the
order in which the ids come up first. An entry has all that the rules with its id report, root by
root, and it is passed if that is nothing. All entries together have the findings of the run, which
come check by check. -/
theorem results_of_visit {v : Visit} (h : v.Checks) (o : Options) :
    ((v.diagnosis o).results.map (·.rule)).Nodup ∧
    (∀ id, id ∈ (v.diagnosis o).results.map (·.rule) ↔ ∃ root ∈ v.plan.roots, ∃ rule ∈ v.plan.rules,
      rule.info.applies root.kind = true ∧ rule.info.id = id) ∧
    (v.diagnosis o).results.map (·.rule) =
      (v.plan.pairs.map fun pair => pair.2.info.id).eraseDups ∧
    (∀ r ∈ (v.diagnosis o).results, IsResult v.outcomes r.rule r) ∧
    (v.diagnosis o).findings = v.outcomes.flatMap Outcome.reported ∧
    ((v.diagnosis o).results.flatMap (·.findings)).Perm (v.diagnosis o).findings := by
  have hids : (v.outcomes.map fun o => o.rule.info.id) =
      v.plan.pairs.map fun pair => pair.2.info.id := by
    rw [← h, List.map_map]
    rfl
  have hrules : (v.diagnosis o).results.map (·.rule) =
      (v.plan.pairs.map fun pair => pair.2.info.id).eraseDups := hids ▸ rules_results v.outcomes
  refine ⟨hrules ▸ nodup_eraseDups _, fun id => ?_, hrules, fun r => mem_results, rfl,
    perm_findings_results v.outcomes⟩
  rw [hrules, List.mem_eraseDups, List.mem_map]
  constructor
  · rintro ⟨pair, hpair, rfl⟩
    obtain ⟨hroot, hrule, happlies⟩ := mem_pairs_iff.mp hpair
    exact ⟨pair.1, hroot, pair.2, hrule, happlies, rfl⟩
  · rintro ⟨root, hroot, rule, hrule, happlies, rfl⟩
    exact ⟨(root, rule), mem_pairs_iff.mpr ⟨hroot, hrule, happlies⟩, rfl⟩

/-! ## Rules that share an id -/

/-- A rule with one remark about every scan root; without a remark its check fails. -/
def remarkRule (id : String) (remark : Option String) : Rule where
  info := ⟨id, id, .node, .warning, "", "", [.generic], ""⟩
  check _ _ :=
    match remark with
    | some text => .ok [⟨id, "package.json", .warning, text, "", none, true⟩]
    | none => .error (.failed "no remark")

/-- A project and its workspace, checked by three rules of two ids, one of which fails. -/
def sharedIdPlan : Plan where
  project := default
  settings := .unset []
  ignored := none
  roots := [.whole default .generic, { ScanRoot.whole default .generic with relativePath := "in" }]
  rules := [remarkRule "a" none, remarkRule "b" (some "short"), remarkRule "a" (some "long")]

/-- The rules of one id report together in both roots; a check that fails adds nothing. -/
theorem results_of_visit_sharedIdPlan :
    (Visit.mk sharedIdPlan (outcomes sharedIdPlan ⟨[]⟩) []).Checks ∧
    (results (outcomes sharedIdPlan ⟨[]⟩)).map (·.rule) = ["a", "b"] ∧
    ((results (outcomes sharedIdPlan ⟨[]⟩)).flatMap (·.findings)).Perm
      (findings (outcomes sharedIdPlan ⟨[]⟩)) ∧
    (findings (outcomes sharedIdPlan ⟨[]⟩)).map (fun f => (f.rule, f.file)) =
      [("b", "package.json"), ("a", "package.json"), ("b", "in/package.json"),
        ("a", "in/package.json")] := by
  have hchecks : (Visit.mk sharedIdPlan (outcomes sharedIdPlan ⟨[]⟩) []).Checks := rfl
  obtain ⟨-, -, hrules, -, -, hperm⟩ := results_of_visit hchecks {}
  exact ⟨hchecks, hrules.trans (by decide +kernel), hperm, by decide +kernel⟩

end Run

end Checkup
