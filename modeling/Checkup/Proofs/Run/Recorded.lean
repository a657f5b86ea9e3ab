import Checkup.CommandLine.Execute
import Checkup.Proofs.Log.Delivery

/-!
# What a check writes of its records

The records of a run come from two parts of the program, whose loggers hang below the shared one. A
check sets up logging, and its records arrive on its console and in its log file as they do in any state
of logging.

* `Run.undotted_of_records`: where the records of a run come from.
* `CommandLine.check_eq`: a check in terms of what its records come to.
-/

namespace Checkup

open Log (Event Level Record State linesTo)

/-! ## Where records come from -/

/-- All of the records come from one part of the program. -/
def Log.ComeFrom (source : String) (records : List Record) : Prop := ∀ r ∈ records, r.source = source

namespace Log.ComeFrom

variable {source : String} {a b : List Record}

theorem nil : ComeFrom source [] := List.forall_mem_nil _

theorem cons (level : Level) (message : String) (h : ComeFrom source a) :
    ComeFrom source (⟨level, source, message⟩ :: a) := List.forall_mem_cons.mpr ⟨rfl, h⟩

theorem append (ha : ComeFrom source a) (hb : ComeFrom source b) : ComeFrom source (a ++ b) :=
  List.forall_mem_append.mpr ⟨ha, hb⟩

theorem ite {p : Prop} [Decidable p] (h : ComeFrom source a) :
    ComeFrom source (if p then a else []) := by
  split
  · exact h
  · exact nil

theorem filterMap {α : Type} {record? : α → Option Record} {values : List α}
    (h : ∀ value r, record? value = some r → r.source = source) :
    ComeFrom source (values.filterMap record?) := by
  intro r hr
  obtain ⟨value, -, hvalue⟩ := List.mem_filterMap.mp hr
  exact h value r hvalue

end Log.ComeFrom

open Log (ComeFrom)

variable {t : Tree} {current : List String} {path : String} {o : Options}

theorem Project.comeFrom_workspaceRecords {root : Location} {manifest : Json.Members} :
    ComeFrom logSource (workspaceRecords t root manifest) := by
  unfold workspaceRecords
  split
  · refine .append (.ite (.cons _ _ .nil)) ?_
    split
    · exact .cons _ _ .nil
    · exact .nil
  · exact .nil

theorem Project.comeFrom_detectRecords : ComeFrom logSource (detectRecords t current path) := by
  unfold detectRecords
  split
  · exact .nil
  · split
    · exact .nil
    · exact comeFrom_workspaceRecords

namespace Run

theorem comeFrom_planRecords {p : Plan} : ComeFrom logSource (planRecords p o) := by
  refine .append (.append (.append (.cons _ _ .nil) ?_) (.ite (.cons _ _ .nil)))
    (.cons _ _ (.cons _ _ .nil))
  split
  · exact .cons _ _ .nil
  · exact .nil

theorem source_of_outcomeRecord {detailed : Bool} (outcome : Outcome) (r : Record)
    (h : outcomeRecord? detailed outcome = some r) : r.source = logSource := by
  unfold outcomeRecord? at h
  split at h
  · cases h
  · obtain rfl := Option.some.inj h
    rfl

theorem source_of_attemptRecord {detailed : Bool} (a : Attempt) (r : Record)
    (h : attemptRecord? detailed a = some r) : r.source = logSource := by
  unfold attemptRecord? at h
  dsimp only at h
  split at h
  · obtain rfl := Option.some.inj h
    rfl
  · obtain rfl := Option.some.inj h
    rfl
  · cases h

theorem comeFrom_visitRecords {detailed : Bool} {v : Visit} :
    ComeFrom logSource (visitRecords detailed v o) := by
  have hfixes : ComeFrom logSource (fixRecords detailed v o) := by
    unfold fixRecords
    split
    · exact .cons _ _ .nil
    · exact .filterMap source_of_attemptRecord
  exact .append (.append (.append comeFrom_planRecords (.filterMap source_of_outcomeRecord)) hfixes)
    (.cons _ _ .nil)

/-- The records of a run are those of detection and those of the run itself. -/
theorem records_eq (detailed : Bool) (given : Option (List Rule)) : ∃ detected others,
    records detailed given t current path o = detected ++ others ∧
      ComeFrom Project.logSource detected ∧ ComeFrom logSource others := by
  unfold records
  split
  · exact ⟨_, _, rfl, Project.comeFrom_detectRecords, comeFrom_visitRecords⟩
  · unfold faultRecords
    split
    · exact ⟨[], [], rfl, .nil, .nil⟩
    · refine ⟨_, _, rfl, Project.comeFrom_detectRecords, ?_⟩
      split
      · exact .nil
      · exact .cons _ _ .nil

/-- The records of a run come from parts of the program whose names do not begin with dots. -/
theorem undotted_of_records {detailed : Bool} {given : Option (List Rule)} :
    ∀ r ∈ records detailed given t current path o, r.source.toList.head? ≠ some '.' := by
  obtain ⟨detected, others, heq, hdetected, hothers⟩ := records_eq detailed given
  rw [heq, List.forall_mem_append]
  refine ⟨fun r hr => ?_, fun r hr => ?_⟩
  · rw [hdetected r hr]
    decide
  · rw [hothers r hr]
    decide

end Run

/-! ## A check -/

namespace CommandLine

/-- A check in terms of what is written of its records after logging is set up for it, in whatever state
logging was. -/
theorem check_eq (s : State) (i : Invocation) (time : String) (style : Style) :
    let records := Run.records i.logging.isDebugging none t current path o
    let written := ((s.after (.setUp i.logging)).run (records.map fun r => .log r.call)).flatMap (·.2)
    let (result, after) := run none t current path o
    check i t current time path o style =
      (endingOf style i.verbose o.dryRun (String.join (linesTo (.stream s.streams) written)) result,
        i.logFile.elim after fun file =>
          appendLogOf i after current time (linesTo (.file file) written)) := by
  dsimp only
  have hfollows : (s.after (.setUp i.logging)).Follows i.logging s.streams := State.follows_setUp
  generalize hrecords : Run.records i.logging.isDebugging none t current path o = records
  obtain ⟨hconsole, hfile⟩ := hfollows.run_shown (hrecords ▸ Run.undotted_of_records)
  unfold check
  dsimp only at hconsole hfile ⊢
  rw [hrecords, hconsole]
  cases hlog : i.logFile with
  | none =>
    rw [appendLogOf, hlog]
    rfl
  | some file =>
    rw [Option.elim_some, hfile file]
    unfold Log.Setup.path? Invocation.logging
    rw [hlog]
    rfl

end CommandLine

end Checkup
