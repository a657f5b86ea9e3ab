import Checkup.Proofs.Json.RoundTrip
import Checkup.Proofs.Report.Labels
import Checkup.Proofs.Run.Results
import Checkup.Report.Json

/-!
# Reports that are read again

The JSON report of a run is one JSON text, and its value is the result. No integer may be so long that it
is not read any more; only line numbers and the number of repairs have no bound of their own. What a
result says is read as it is written, and no result is nested deeper than five arrays and objects.

* `Diagnosis.Fits`: the integers of a result are not too long.
* `Diagnosis.fitsIn_toJson`: a result reads back where there is room for five containers.
* `Run.parse_report`: the report of a run reads back.
-/

namespace Checkup

/-- The integer is not too long to be read. -/
def Json.Short (n : Int) : Prop := n.natAbs < 10 ^ Number.maxDecimalDigits

/-- The integers of a result are not too long to be read. -/
structure Diagnosis.Fits (d : Diagnosis) : Prop where
  lines : ∀ f ∈ d.findings, ∀ n ∈ f.line, Json.Short n
  fixedCount : ∀ n ∈ d.fixedCount, Json.Short n

namespace Json

/-- The value reads back where there is room for so many nested containers. -/
structure FitsIn (room : Nat) (v : Json) : Prop where
  readable : Readable v
  shallow : v.nesting ≤ room

variable {room : Nat}

/-! ## Values that are no containers -/

theorem fitsIn_of_isAtom {v : Json} (h : Readable v) (ha : IsAtom v) : FitsIn room v :=
  ⟨h, nesting_of_isAtom ha⟩

theorem fitsIn_null : FitsIn room .null := fitsIn_of_isAtom .null trivial

theorem fitsIn_bool (b : Bool) : FitsIn room (.bool b) := fitsIn_of_isAtom (.bool b) trivial

theorem fitsIn_str (s : String) : FitsIn room (.str s) := fitsIn_of_isAtom (.str s) trivial

theorem fitsIn_of_short {n : Int} (h : Short n) : FitsIn room (.int n) := by
  refine fitsIn_of_isAtom (.int ?_) trivial
  rw [Number.Binary64.decimalDigits, Nat.toString_eq_repr, Nat.toList_repr]
  exact (Nat.length_toDigits_le_iff (by decide) (by decide)).mpr h

theorem short_of_le {n : Int} {bound : Nat} (h : n.natAbs ≤ bound)
    (hbound : bound < 10 ^ Number.maxDecimalDigits) : Short n := h.trans_lt hbound

theorem fitsIn_ofInt? {n : Option Int} (h : ∀ m ∈ n, Short m) : FitsIn room (ofInt? n) := by
  cases n with
  | none => exact fitsIn_null
  | some m => exact fitsIn_of_short (h m rfl)

theorem fitsIn_ofLabel {l : Label} (h : IsSound l) : FitsIn room (ofLabel l) :=
  fitsIn_of_isAtom (readable_ofLabel h).1 (readable_ofLabel h).2

theorem fitsIn_ofLabel? {l : Option Label} (h : ∀ m ∈ l, IsSound m) : FitsIn room (ofLabel? l) := by
  cases l with
  | none => exact fitsIn_null
  | some m => exact fitsIn_ofLabel (h m rfl)

/-! ## Containers -/

/-- An object reads back if its members do, and its names are different texts. -/
theorem fitsIn_obj {ms : Members} (hnames : ms.keys.Nodup) (htexts : ms.keys.all Label.isText = true)
    (h : ∀ m ∈ ms, FitsIn room m.2) : FitsIn (room + 1) (.obj ms) where
  readable := by
    refine .obj (fun m hm => ?_) hnames fun m hm => (h m hm).readable
    have htext := List.all_eq_true.mp htexts m.1 (List.mem_map_of_mem hm)
    cases hname : m.1 with
    | text s => exact isSound_text s
    | loose points hloose =>
      rw [hname] at htext
      cases htext
  shallow := nesting_obj_le_iff.mpr fun m hm => (h m hm).shallow

theorem fitsIn_map {α : Type} {toJson : α → Json} {values : List α}
    (h : ∀ value ∈ values, FitsIn room (toJson value)) :
    FitsIn (room + 1) (.arr (values.map toJson)) where
  readable := .arr (List.forall_mem_map.mpr fun value hvalue => (h value hvalue).readable)
  shallow := nesting_arr_le_iff.mpr
    (List.forall_mem_map.mpr fun value hvalue => (h value hvalue).shallow)

end Json

open Json

/-! ## Results -/

variable {room : Nat}

theorem Finding.fitsIn_toJson {f : Finding} (hsound : f.IsSound) (hline : ∀ n ∈ f.line, Short n) :
    FitsIn (room + 1) f.toJson := by
  obtain ⟨hmessage, hhelp⟩ := Finding.isSound_iff.mp hsound
  refine fitsIn_obj (by simp [Members.keys]) rfl ?_
  simp only [List.forall_mem_cons]
  exact ⟨fitsIn_str _, fitsIn_str _, fitsIn_str _, fitsIn_ofLabel hmessage, fitsIn_ofLabel hhelp,
    fitsIn_ofInt? hline, fitsIn_bool _, List.forall_mem_nil _⟩

theorem Workspace.fitsIn_toJson {w : Workspace} (h : IsSound w.name) : FitsIn (room + 1) w.toJson := by
  refine fitsIn_obj (by simp [Members.keys]) rfl ?_
  simp only [List.forall_mem_cons]
  exact ⟨fitsIn_ofLabel h, fitsIn_str _, fitsIn_str _, fitsIn_str _, fitsIn_bool _,
    List.forall_mem_nil _⟩

theorem Project.fitsIn_toJson {p : Project} (h : ∀ l ∈ p.labels, IsSound l) :
    FitsIn (room + 3) p.toJson := by
  simp only [labels, List.forall_mem_cons, List.forall_mem_append, Option.mem_toList,
    List.forall_mem_map] at h
  obtain ⟨hname, ⟨⟨⟨hversion, hframework⟩, hlibrary⟩, horchestrator⟩, hworkspaces⟩ := h
  refine fitsIn_obj (by simp [Members.keys]) rfl ?_
  simp only [List.forall_mem_cons]
  refine ⟨fitsIn_str _, fitsIn_ofLabel hname, fitsIn_str _, fitsIn_str _, fitsIn_bool _, fitsIn_bool _,
    fitsIn_ofLabel? hversion, ?_, fitsIn_ofLabel? hframework, fitsIn_ofLabel? hlibrary,
    fitsIn_ofLabel? horchestrator, List.forall_mem_nil _⟩
  unfold workspaceList at hworkspaces
  split
  · rename_i ws hws
    rw [hws] at hworkspaces
    exact fitsIn_map fun w hw => Workspace.fitsIn_toJson (hworkspaces w hw)
  · exact fitsIn_null

theorem RuleResult.fitsIn_toJson {r : RuleResult} (hsound : ∀ f ∈ r.findings, f.IsSound)
    (hlines : ∀ f ∈ r.findings, ∀ n ∈ f.line, Short n) : FitsIn (room + 3) r.toJson := by
  refine fitsIn_obj (by simp [Members.keys]) rfl ?_
  simp only [List.forall_mem_cons]
  exact ⟨fitsIn_str _, fitsIn_str _, fitsIn_str _, fitsIn_bool _,
    fitsIn_map fun f hf => f.fitsIn_toJson (hsound f hf) (hlines f hf), List.forall_mem_nil _⟩

/-- A result reads back if the findings of its rules are its findings. -/
theorem Diagnosis.fitsIn_toJson {d : Diagnosis} (hsound : d.IsSound) (h : d.Fits) (hscore : Short d.score)
    (hduration : Short d.duration) (hresults : ∀ r ∈ d.results, ∀ f ∈ r.findings, f ∈ d.findings) :
    FitsIn (room + 5) d.toJson := by
  obtain ⟨hproject, hfindings⟩ := List.forall_mem_append.mp hsound
  have hfindings : ∀ f ∈ d.findings, f.IsSound := List.forall_mem_flatMap.mp hfindings
  refine fitsIn_obj (by simp [Members.keys]) rfl ?_
  simp only [List.forall_mem_cons]
  exact ⟨fitsIn_of_short hscore, fitsIn_str _,
    fitsIn_map fun f hf => f.fitsIn_toJson (hfindings f hf) (h.lines f hf),
    Project.fitsIn_toJson hproject,
    fitsIn_map fun r hr => RuleResult.fitsIn_toJson (fun f hf => hfindings f (hresults r hr f hf))
      fun f hf => h.lines f (hresults r hr f hf),
    fitsIn_of_short hduration, fitsIn_ofInt? h.fixedCount, List.forall_mem_nil _⟩

namespace Run

variable {t t' : Tree} {current : List String} {path : String} {o : Options} {d : Diagnosis}

/-- The result of a run reads back from JSON text. -/
theorem fits_toJson (hrun : run none t current path o = (.ok d, t')) (h : d.Fits) : Json.Fits d.toJson := by
  have hsound := sound_of_run hrun
  obtain ⟨p, -, rfl, -⟩ := run_eq_ok.mp hrun
  have hfew : 100 < 10 ^ Number.maxDecimalDigits :=
    calc 100 < 10 ^ 3 := by decide
      _ ≤ 10 ^ Number.maxDecimalDigits := Nat.pow_le_pow_right (by decide) (by decide)
  have hfits : FitsIn (985 + 5) (Diagnosis.toJson _) := Diagnosis.fitsIn_toJson hsound h
    (short_of_le (n := (Visit.score _ : Int)) (Nat.sub_le Score.full _) hfew)
    (short_of_le (n := 0) (Nat.zero_le 100) hfew)
    fun r hr f hf => (perm_findings_results _).subset (List.mem_flatMap.mpr ⟨r, hr, hf⟩)
  exact ⟨hfits.readable, hfits.shallow⟩

/-- The report of a run as JSON text is read as its result. -/
theorem parse_report (hrun : run none t current path o = (.ok d, t')) (h : d.Fits) :
    Json.parse (Report.json d).toList = .ok d.toJson :=
  (fits_toJson hrun h).parse_pretty

end Run

end Checkup
