import Checkup.Proofs.Scan.Reading
import Checkup.Proofs.Tree.Resolution

/-!
# The sandbox of a scan root

Reading and writing in a scan root keep to what lies in the root, links followed to their ends. This
fails for one sort of path: on a loop of links the rest of a path is taken as written, with `..`
worked out on paper, and what is left may go through a link that nobody has looked at. Only reading
JSON comes to a fault, and only if the file is nested too deep.

* `Context.RootAt.sandboxedAt`: a path without links left on it keeps to the root.
* `Context.sandboxed_of_not_loops`: so does every path that meets no loop.
* `Context.not_sandboxed_on_loop`: a loop by which a path leads to a file beside the root.
* `Context.readJson_brackets`: a file that begins with too many brackets is a fault.
-/

namespace Checkup

namespace Context

variable {c : Context} {t : Tree} {root target l : Location} {path : String}

/-- What a path of a scan root leads to, if it stays in the root on paper. -/
def access (c : Context) (t : Tree) (path : String) : Except Fault (Location × Node) :=
  (c.locate t path).bind t.access

/-- The access to a file goes by its location. -/
theorem access_eq_ok {node : Node} (h : c.access t path = .ok (l, node)) :
    ∃ target, c.locate t path = .ok target ∧ Tree.Plain target ∧ t.access target = .ok (l, node) := by
  unfold access at h
  obtain ⟨target, hlocate, haccess⟩ := Except.bind_eq_ok.mp h
  refine ⟨target, hlocate, ?_, haccess⟩
  unfold locate at hlocate
  obtain ⟨root, -, hlocate⟩ := Except.bind_eq_ok.mp hlocate
  obtain ⟨found, hresolve, hlocate⟩ := Except.bind_eq_ok.mp hlocate
  unfold Tree.resolve at hresolve
  split at hresolve
  · cases hresolve
  · split at hlocate
    · cases hlocate
      exact (Tree.resolveSteps_cases hresolve).1
    · cases hlocate

/-- A text is read from the file to which its path leads. -/
theorem access_of_readText? {text : String} (h : c.readText? t path = some text) :
    ∃ l bytes, c.access t path = .ok (l, .file bytes) ∧ Tree.decodeText bytes = .ok text := by
  unfold readText? at h
  split at h
  · rename_i target hlocate
    cases htext : t.readText target with
    | error fault =>
      rw [htext] at h
      cases h
    | ok found =>
      rw [htext] at h
      cases h
      obtain ⟨l, bytes, haccess, hdecode⟩ := Tree.access_of_readText htext
      refine ⟨l, bytes, ?_, hdecode⟩
      unfold access
      rw [hlocate]
      exact haccess
  · cases h

/-- What is read at a path lies in the root, links followed, and writing there changes nothing that
lies elsewhere. Reading fails on JSON that is nested too deep, and on nothing else. -/
structure SandboxedAt (c : Context) (t : Tree) (root : Location) (path : String) : Prop where
  fileExists : c.fileExists t path = true →
    ∃ l node, c.access t path = .ok (l, node) ∧ root <+: l
  readText : ∀ {text}, c.readText? t path = some text → ∃ l bytes,
    c.access t path = .ok (l, .file bytes) ∧ Tree.decodeText bytes = .ok text ∧ root <+: l
  readJson : ∀ {value}, c.readJson t path = .ok (some value) → ∃ l bytes,
    c.access t path = .ok (l, .file bytes) ∧ root <+: l
  readJson_fault : ∀ fault, c.readJson t path = .error fault ↔
    fault = .tooDeep ∧ ∃ text, c.readText? t path = some text ∧ Json.IsTooDeep text
  readJson_deep : ∀ {text v}, c.readText? t path = some text → Json.Denotes text v →
    Json.maxNesting < v.nesting → c.readJson t path = .error .tooDeep
  writeText : ∀ text {l}, (c.writeText t path text).2.node? l ≠ t.node? l → root <+: l
  writeJson : ∀ value {l}, (c.writeJson t path value).2.node? l ≠ t.node? l → root <+: l

/-- The root of a scan is there, at a location without links. -/
structure RootAt (c : Context) (t : Tree) (root : Location) : Prop where
  resolved : t.resolveSteps c.root = .ok root
  linkless : t.Linkless root
  there : t.node? root ≠ none

theorem rootAt_of_access {node : Node} (h : t.access c.root = .ok (root, node)) :
    c.RootAt t root := by
  have hfind := Tree.find_of_access h
  obtain ⟨⟨n, hleads⟩, hstands⟩ := Tree.leads_of_find hfind
  refine ⟨Tree.resolveSteps_of_find hfind, (hleads.linkless (.nil t) Tree.plain_nil).1, ?_⟩
  exact Option.ne_none_iff_exists'.mpr ⟨node, hstands⟩

namespace RootAt

theorem locate_eq_ok (h : c.RootAt t root) : c.locate t path = .ok target ↔
    '\x00' ∉ path.toList ∧ t.resolveSteps (Path.stepsFrom root path) = .ok target ∧
      root <+: target := by
  unfold locate
  rw [h.resolved]
  dsimp only [bind, Except.bind]
  unfold Tree.resolve
  by_cases hnul : '\x00' ∈ path.toList
  · rw [if_pos hnul]
    exact iff_of_false (fun h => by cases h) fun h => h.1 hnul
  · rw [if_neg hnul]
    cases hresolve : t.resolveSteps (Path.stepsFrom root path) with
    | error fault => exact iff_of_false (fun h => by cases h) fun h => by cases h.2.1
    | ok found =>
      dsimp only
      by_cases hp : root <+: found
      · rw [if_pos (List.isPrefixOf_iff_prefix.mpr hp)]
        constructor
        · intro heq
          cases heq
          exact ⟨hnul, rfl, hp⟩
        · rintro ⟨-, heq, -⟩
          cases heq
          rfl
      · rw [if_neg fun hprefix => hp (List.isPrefixOf_iff_prefix.mp hprefix)]
        refine iff_of_false (fun heq => by cases heq) ?_
        rintro ⟨-, heq, hprefix⟩
        cases heq
        exact hp hprefix

/-! ## Paths without links -/

theorem plain (h : c.RootAt t root) (hlocate : c.locate t path = .ok target) :
    Tree.Plain target :=
  (Tree.resolveSteps_cases (h.locate_eq_ok.mp hlocate).2.1).1

/-- An access of a path without links ends in the root. -/
theorem inside_of_find (h : c.RootAt t root) (hlocate : c.locate t path = .ok target)
    (hlinkless : t.Linkless target) {place : Tree.Place} (hfind : t.find target = .ok place) :
    root <+: place.location := by
  rw [Tree.location_of_find hlinkless (h.plain hlocate) hfind]
  exact (h.locate_eq_ok.mp hlocate).2.2

/-- A free place on the way of a path without links lies in the root. -/
theorem inside_of_free (h : c.RootAt t root) (ht : t.Founded) (hlocate : c.locate t path = .ok target)
    (hlinkless : t.Linkless target) {q : List String} {name : String} {parent : Location}
    (hq : q ++ [name] <+: target) (haccess : t.access q = .ok (parent, .folder))
    (hnone : t.node? (parent ++ [name]) = none) : root <+: parent ++ [name] := by
  have hplain : Tree.Plain q := fun other hn =>
    h.plain hlocate other (hq.subset (List.mem_append_left _ hn))
  have hqtarget : q <+: target := (List.prefix_append q [name]).trans hq
  have hparent : parent = q :=
    Tree.location_of_find (hlinkless.of_prefix hqtarget) hplain (Tree.find_of_access haccess)
  rw [hparent] at hnone ⊢
  rcases List.prefix_or_prefix_of_prefix (h.locate_eq_ok.mp hlocate).2.2 hq with hin | hout
  · exact hin
  · by_contra hne
    -- the free place would be above the root, which is there
    have hfolder := ht.folder_above hout (fun heq => hne (heq ▸ List.prefix_refl _)) h.there
    rw [hnone] at hfolder
    cases hfolder

/-- What is written at a path without links stays in the root. -/
theorem inside_of_writeText (h : c.RootAt t root) (ht : t.Founded)
    (hlinkless : ∀ target, c.locate t path = .ok target → t.Linkless target) (text : String)
    (hl : (c.writeText t path text).2.node? l ≠ t.node? l) : root <+: l := by
  unfold writeText at hl
  cases hlocate : c.locate t path with
  | error fault =>
    rw [hlocate] at hl
    exact absurd rfl hl
  | ok target =>
    rw [hlocate] at hl
    have hlinkless := hlinkless target hlocate
    rcases Tree.writeText_changes ht (h.plain hlocate)
      (Prod.eta (t.writeText target text)).symm with heq | ⟨place, hfind, hall⟩ | hbelow
    · rw [heq] at hl
      exact absurd rfl hl
    · rw [hall l hl]
      exact h.inside_of_find hlocate hlinkless hfind
    · obtain ⟨q, name, parent, hq, haccess, hnone, hall⟩ := hbelow
      exact (h.inside_of_free ht hlocate hlinkless hq haccess hnone).trans (hall l hl)

variable (hlinkless : ∀ target, c.locate t path = .ok target → t.Linkless target)

include hlinkless

/-- What is read at a path without links lies in the root. -/
theorem inside_of_readText? (h : c.RootAt t root) {text : String}
    (hread : c.readText? t path = some text) : ∃ l bytes,
      c.access t path = .ok (l, .file bytes) ∧ Tree.decodeText bytes = .ok text ∧ root <+: l := by
  obtain ⟨l, bytes, haccess, hdecode⟩ := access_of_readText? hread
  obtain ⟨target, hlocate, -, htarget⟩ := access_eq_ok haccess
  exact ⟨l, bytes, haccess, hdecode,
    h.inside_of_find hlocate (hlinkless target hlocate) (Tree.find_of_access htarget)⟩

/-- What is there at a path without links lies in the root. -/
theorem inside_of_fileExists (h : c.RootAt t root) (hthere : c.fileExists t path = true) :
    ∃ l node, c.access t path = .ok (l, node) ∧ root <+: l := by
  unfold fileExists at hthere
  cases hlocate : c.locate t path with
  | error fault =>
    rw [hlocate] at hthere
    cases hthere
  | ok target =>
    rw [hlocate] at hthere
    dsimp only at hthere
    obtain ⟨l, node, haccess⟩ := Tree.access_of_exists hthere
    refine ⟨l, node, ?_, ?_⟩
    · unfold access
      rw [hlocate]
      exact haccess
    · exact h.inside_of_find hlocate (hlinkless target hlocate) (Tree.find_of_access haccess)

/-- A path without links left on it keeps to the root. -/
theorem sandboxedAt (h : c.RootAt t root) (ht : t.Founded) : c.SandboxedAt t root path where
  fileExists := h.inside_of_fileExists hlinkless
  readText := h.inside_of_readText? hlinkless
  readJson hjson := by
    obtain ⟨text, htext, -⟩ := Option.bind_eq_some_iff.mp (readJson_eq_ok_some_iff.mp hjson)
    obtain ⟨l, bytes, haccess, -, hbelow⟩ := h.inside_of_readText? hlinkless htext
    exact ⟨l, bytes, haccess, hbelow⟩
  readJson_fault _ := readJson_eq_error_iff
  readJson_deep htext hv hdeep :=
    readJson_eq_error_iff.mpr ⟨rfl, _, htext, Json.isTooDeep_of_denotes hv hdeep⟩
  writeText text _ hl := h.inside_of_writeText ht hlinkless text hl
  writeJson value l hl := by
    unfold writeJson at hl
    split at hl
    · exact absurd rfl hl
    · exact h.inside_of_writeText ht hlinkless _ hl

end RootAt

/-! ## Paths that meet no loop -/

/-- In a scan root that is there every path keeps to the root, unless it meets a loop of links. -/
theorem sandboxed_of_not_loops (ht : t.Founded) {node : Node}
    (hroot : t.access c.root = .ok (root, node)) (path : String)
    (hloops : ¬ t.Loops (Path.stepsFrom root path)) : c.SandboxedAt t root path := by
  have h := rootAt_of_access hroot
  refine h.sandboxedAt (fun target hlocate => ?_) ht
  exact (Tree.resolveSteps_cases (h.locate_eq_ok.mp hlocate).2.1).2.resolve_right hloops

/-! ## A loop beside a link that leads out -/

/-- A root with a link to a folder in it, a link to a file beside it, and a link that leads back to
itself on the way to the latter. -/
def loopTree : Tree := ⟨[(["w"], .folder), (["w", "r"], .folder), (["w", "r", "src"], .folder),
  (["w", "r", "src", "f.ts"], .file "open".toUTF8), (["w", "r", "in"], .link "src"),
  (["w", "r", "a"], .link "a/../b"), (["w", "r", "b"], .link "../secret.txt"),
  (["w", "secret.txt"], .file "secret".toUTF8)]⟩

/-- The root, seen as a scan root. -/
def loopContext : Context := .forRoot ["w", "r"] default false "" []

theorem founded_loopTree : loopTree.Founded := Tree.founded_of_entries (by decide)

theorem access_loopContext : loopTree.access loopContext.root = .ok (["w", "r"], .folder) := by
  decide +kernel

theorem sandboxed_linked_folder : loopContext.readText? loopTree "in/f.ts" = some "open" ∧
    ¬ loopTree.Loops ["w", "r", "in", "f.ts"] ∧
    loopContext.SandboxedAt loopTree ["w", "r"] "in/f.ts" := by
  have haccess : loopTree.access ["w", "r", "in", "f.ts"] =
      .ok (["w", "r", "src", "f.ts"], .file "open".toUTF8) := by decide +kernel
  have hloops := Tree.not_loops_of_access haccess
  exact ⟨by decide +kernel, hloops,
    sandboxed_of_not_loops founded_loopTree access_loopContext "in/f.ts" hloops⟩

/-- A path on a loop is read from beside the root. -/
theorem not_sandboxed_on_loop : loopContext.readText? loopTree "a" = some "secret" ∧
    ¬ loopContext.SandboxedAt loopTree ["w", "r"] "a" := by
  have hread : loopContext.readText? loopTree "a" = some "secret" := by decide +kernel
  have haccess : loopContext.access loopTree "a" =
      .ok (["w", "secret.txt"], .file "secret".toUTF8) := by decide +kernel
  refine ⟨hread, fun h => ?_⟩
  obtain ⟨l, bytes, hl, -, hprefix⟩ := h.readText hread
  rw [haccess] at hl
  cases hl
  exact absurd hprefix (by decide)

/-! ## A file of brackets -/

/-- Reading JSON fails on a file that begins with too many brackets, whatever follows them. -/
theorem readJson_brackets {n : Nat} (h : Json.maxNesting < n) {rest : List Char}
    (htext : c.readText? t path = some (String.ofList (List.replicate n '[' ++ rest))) :
    c.readJson t path = .error .tooDeep :=
  readJson_eq_error_iff.mpr ⟨rfl, _, htext, Json.isTooDeep_brackets h rest⟩

/-- A root with one file in it. -/
def fileTree (text : String) : Tree :=
  ⟨[(["w"], .folder), (["w", "r"], .folder), (["w", "r", "a.json"], .file text.toUTF8)]⟩

theorem readText?_fileTree {text : String} (h : '\r' ∉ text.toList) :
    loopContext.readText? (fileTree text) "a.json" = some text := by
  have hlocate : loopContext.locate (fileTree text) "a.json" = .ok ["w", "r", "a.json"] := rfl
  have haccess : (fileTree text).access ["w", "r", "a.json"] =
      .ok (["w", "r", "a.json"], .file text.toUTF8) := rfl
  rw [readText?, hlocate]
  dsimp only
  rw [Tree.readText, Tree.readBytes, haccess]
  dsimp only [Except.bind]
  rw [Tree.decodeText_toUTF8 h]
  rfl

/-- The sandbox has two gaps: a path on a loop is read from beside the root, and reading a file of
brackets fails. -/
theorem sandbox_gaps : (loopContext.readText? loopTree "a" = some "secret" ∧
      ¬ loopContext.SandboxedAt loopTree ["w", "r"] "a") ∧
    loopContext.readJson (fileTree (String.ofList (List.replicate 2000 '['))) "a.json" =
      .error .tooDeep := by
  have hbrackets : '\r' ∉ (String.ofList (List.replicate 2000 '[')).toList := by
    rw [String.toList_ofList]
    exact fun h => absurd (List.eq_of_mem_replicate h) (by decide)
  have htext := readText?_fileTree hbrackets
  rw [← List.append_nil (List.replicate 2000 '[')] at htext
  refine ⟨not_sandboxed_on_loop, ?_⟩
  have hfails := readJson_brackets (by decide) htext
  rwa [List.append_nil] at hfails

end Context

end Checkup
