import Checkup.Proofs.Json.Lines
import Checkup.Proofs.Repair.Amendment
import Checkup.Proofs.Scan.Sandbox
import Checkup.Proofs.Tree.ReadBack

/-!
# Files of a scan root that were written

What a context writes at a path it reads back there, in any tree: the path is located where it was
located before, although it may have been resolved by way of a loop of links, and the file that was
written is found. Text comes back if it holds no carriage return, and JSON values have none in their
text.

* `Context.locate_of_find`: a path that can be followed after a write is located as before.
* `Context.readText?_of_writeText`: a text that was written is read.
* `Context.readJson_of_writeJson`: so is a value.
* `Context.rewrite_of_readText?`: a file that is read can be amended.
* `Context.readText?_of_rewrite`: an amended text is read.
-/

namespace Checkup

namespace Context

variable {c : Context} {t t' : Tree} {path : String} {target : Location}

/-- Where a path is located. -/
theorem locate_eq_ok_iff : c.locate t path = .ok target ↔
    ∃ root, t.resolveSteps c.root = .ok root ∧ t.resolve root path = .ok target ∧
      root <+: target := by
  unfold locate
  dsimp only [bind, Except.bind]
  cases hroot : t.resolveSteps c.root with
  | error fault => exact iff_of_false (fun h => by cases h) fun ⟨_, h, _⟩ => by cases h
  | ok root =>
    dsimp only
    cases hresolve : t.resolve root path with
    | error fault =>
      refine iff_of_false (fun h => by cases h) ?_
      rintro ⟨_, heq, h, _⟩
      cases heq
      rw [hresolve] at h
      cases h
    | ok found =>
      dsimp only
      constructor
      · intro h
        split at h
        · rename_i hp
          cases h
          exact ⟨root, rfl, hresolve, List.isPrefixOf_iff_prefix.mp hp⟩
        · cases h
      · rintro ⟨_, heq, h, hp⟩
        cases heq
        rw [hresolve] at h
        cases h
        rw [if_pos (List.isPrefixOf_iff_prefix.mpr hp)]
        rfl

/-- In a tree with the same links a path that can be followed is located as before. -/
theorem locate_of_find (halike : Tree.LinkedAlike t t') {place : Tree.Place}
    (hfind : t'.find target = .ok place) (h : c.locate t path = .ok target) :
    c.locate t' path = .ok target := by
  obtain ⟨root, hroot, hresolve, hp⟩ := locate_eq_ok_iff.mp h
  obtain ⟨_, hfindRoot⟩ := Tree.find_of_prefix hp hfind
  refine locate_eq_ok_iff.mpr ⟨root, halike.resolveSteps_eq hroot hfindRoot, ?_, hp⟩
  unfold Tree.resolve at hresolve ⊢
  split at hresolve
  · cases hresolve
  · rename_i hnul
    rw [if_neg hnul]
    exact halike.resolveSteps_eq hresolve hfind

/-- A text that was written is read, unless it holds carriage returns. -/
theorem readText?_of_writeText {text : String} (h : c.writeText t path text = (.ok (), t'))
    (htext : '\r' ∉ text.toList) : c.readText? t' path = some text := by
  unfold writeText at h
  split at h
  · rename_i target hlocate
    obtain ⟨halike, l, hfind⟩ := Tree.find_of_writeText h
    unfold readText?
    rw [locate_of_find halike hfind hlocate]
    exact Tree.content_of_writeText h htext
  · cases h

/-- A value that was written is read back, with its members in order. -/
theorem readJson_of_writeJson {value : Json} (hvalue : value.Readable)
    (h : c.writeJson t path value = (.ok (), t')) : c.readJson t' path = .ok (some value) := by
  unfold writeJson at h
  split at h
  · cases h
  · rename_i hroom
    have hfits : value.Fits := ⟨hvalue, Nat.not_lt.mp hroom⟩
    rw [readJson_eq_ok_some_iff, readJson?, readText?_of_writeText h (Json.not_return_pretty hvalue)]
    exact Json.parse?_eq_some.mpr hfits.parse_pretty

/-! ## A value behind a link -/

/-- A folder with a link to another folder in it. -/
def linkedTree : Tree := ⟨[(["w"], .folder), (["w", "src"], .folder), (["w", "in"], .link "src")]⟩

/-- The folder, seen as a scan root. -/
def linkedContext : Context := .forRoot ["w"] default false "" []

/-- Names out of order, empty containers, and texts with line breaks and beyond the first plane. -/
def nestedValue : Json := .obj [("b", .arr [.null, .bool true, .int (-12), .arr []]),
  ("a\r\n", .obj [("𝕜", .str "\"\\é\r"), ("", .obj [])])]

theorem readable_nestedValue : nestedValue.Readable := by
  have hitems : ∀ v ∈ [.null, .bool true, .int (-12), .arr []], Json.Readable v := by
    rw [List.forall_mem_cons, List.forall_mem_cons, List.forall_mem_cons, List.forall_mem_singleton]
    exact ⟨.null, .bool true, .int (by decide +kernel), .arr fun _ h => by cases h⟩
  have hempty : Json.Readable (.obj []) :=
    .obj (fun _ h => by cases h) List.nodup_nil fun _ h => by cases h
  refine .obj ?_ (by decide) ?_
  · rw [List.forall_mem_cons, List.forall_mem_singleton]
    exact ⟨Json.isSound_text _, Json.isSound_text _⟩
  · rw [List.forall_mem_cons, List.forall_mem_singleton]
    refine ⟨.arr hitems, .obj ?_ (by decide) ?_⟩
    · rw [List.forall_mem_cons, List.forall_mem_singleton]
      exact ⟨Json.isSound_text _, Json.isSound_text _⟩
    · rw [List.forall_mem_cons, List.forall_mem_singleton]
      exact ⟨.str _, hempty⟩

theorem nestedValue_reads_back :
    nestedValue.Readable ∧ ∃ t', linkedContext.writeJson linkedTree "in/new/v.json" nestedValue =
      (.ok (), t') ∧ linkedContext.readJson t' "in/new/v.json" = .ok (some nestedValue) := by
  have hdone : (linkedContext.writeJson linkedTree "in/new/v.json" nestedValue).1 = .ok () := by
    decide +kernel
  have hwrite := Prod.fst_eq_iff.mp hdone
  exact ⟨readable_nestedValue, _, hwrite, readJson_of_writeJson readable_nestedValue hwrite⟩

/-! ## Amending a file that is read -/

variable {a : Amendment}

/-- A file that is read is amended where its path leads. -/
theorem rewrite_of_readText? {text s : String} (hread : c.readText? t path = some text)
    (ha : a.apply (some text) = some s) : ∃ l bytes, c.access t path = .ok (l, .file bytes) ∧
      Tree.decodeText bytes = .ok text ∧
      c.rewrite t path a = (.ok true, t.put l (.file s.toUTF8)) := by
  obtain ⟨l, bytes, haccess, hdecode⟩ := access_of_readText? hread
  obtain ⟨target, hlocate, hplain, htarget⟩ := access_eq_ok haccess
  refine ⟨l, bytes, haccess, hdecode, ?_⟩
  unfold rewrite writeText
  rw [hread, if_neg (Amendment.not_refuses ha), ha, hlocate]
  dsimp only
  rw [Tree.writeText_of_access hplain htarget]
  rfl

/-- What an amendment wrote is read, unless it holds carriage returns. -/
theorem readText?_of_rewrite (h : c.rewrite t path a = (.ok true, t')) :
    ∃ s, a.apply (c.readText? t path) = some s ∧
      ('\r' ∉ s.toList → c.readText? t' path = some s) := by
  unfold rewrite at h
  split at h
  · cases h
  split at h
  · cases h
  · rename_i s hs
    have hwrite : c.writeText t path s = (.ok (), t') := by
      generalize c.writeText t path s = outcome at h ⊢
      obtain ⟨result, written⟩ := outcome
      cases result with
      | error fault => cases h
      | ok done =>
        cases h
        rfl
    exact ⟨s, hs, readText?_of_writeText hwrite⟩

end Context

end Checkup
