import Checkup.Proofs.Repair.Effect
import Checkup.Proofs.Repair.Members
import Checkup.Proofs.Repair.Naming
import Checkup.Proofs.Scan.ReadBack

/-!
# What a repair leaves as it is

The repairs of compiler settings and of manifests write the whole file anew. The value that is read
from the file afterwards is the one before but for the one member that the repair is about: all other
members have their values and their places.

* `Gives`: an object with a member given a value.
* `read_of_rewrite`: the objects before and after an amendment.
* `rest_kept`: what the three repairs keep.
-/

namespace Checkup

open Json (Members)
open Hygiene (StrictTyping.fix EngineVersion.fix)
open Monorepo (WorkspaceProtocol.check WorkspaceProtocol.fix WorkspaceProtocol.names
  WorkspaceProtocol.message WorkspaceProtocol.namedIn?)

/-- One object is another one with a member given a value, in its place if it was there and at the end
if it was not. The other members are the same, in the same order. -/
inductive Gives (key : Label) (value : Json) : Members → Members → Prop
  | inPlace {front back : Members} (old : Json) (h : key ∉ front.keys) :
    Gives key value (front ++ (key, old) :: back) (front ++ (key, value) :: back)
  | atEnd {members : Members} (h : key ∉ members.keys) :
    Gives key value members (members ++ [(key, value)])

/-- One object is another one with a member of one of its objects given a value. What is no object
counts as an empty one. -/
def GivesIn (name key : Label) (value : Json) (members members' : Members) : Prop :=
  ∃ inner, Gives key value (((members.get? name).bind Json.members?).getD []) inner ∧
    Gives name (.obj inner) members members'

variable {c : Context} {t t' : Tree} {f : Finding}

/-! ## Members with a value -/

theorem gives_put (members : Members) (key : Label) (value : Json) :
    Gives key value members (members.put key value) := by
  suffices ∀ front : Members, key ∉ front.keys →
      Gives key value (front ++ members) (front ++ members.put key value) from this [] List.not_mem_nil
  induction members with
  | nil =>
    intro front hfront
    rw [List.append_nil]
    exact .atEnd hfront
  | cons member rest ih =>
    intro front hfront
    obtain ⟨k, v⟩ := member
    unfold Members.put Association.put
    by_cases hk : k = key
    · subst hk
      rw [if_pos rfl]
      exact .inPlace v hfront
    · rw [if_neg hk, List.append_cons, List.append_cons front (k, v) (Association.put rest key value)]
      refine ih (front ++ [(k, v)]) ?_
      unfold Members.keys
      rw [List.map_append, List.mem_append, not_or]
      exact ⟨hfront, fun h => hk (List.mem_singleton.mp h).symm⟩

theorem givesIn_put (members : Members) (name key : Label) (value : Json) :
    GivesIn name key value members (members.put name
      (.obj ((((members.get? name).bind Json.members?).getD []).put key value))) :=
  ⟨_, gives_put _ key value, gives_put members name _⟩

/-! ## Values before and after -/

theorem readJson_of_members {path : String} {members : Members}
    (h : Amendment.membersOf (c.readText? t path) = some members) :
    c.readJson t path = .ok (some (.obj members)) := by
  rw [Context.readJson_eq_ok_some_iff]
  obtain ⟨value, hvalue, hmembers⟩ := Option.bind_eq_some_iff.mp h
  cases value with
  | obj found =>
    cases hmembers
    exact hvalue
  | _ => cases hmembers

/-- An amendment that edits the members of an object: what is read before and after it. -/
theorem read_of_rewrite {path : String} {a : Amendment} {edit : Members → Option Members}
    (ha : ∀ text, a.apply text = ((Amendment.membersOf text).bind edit).map Amendment.textOf)
    (hedit : ∀ {members edited}, Json.Fits (.obj members) → edit members = some edited →
      Json.Fits (.obj edited)) (h : c.rewrite t path a = (.ok true, t')) :
    ∃ members edited, Json.Fits (.obj members) ∧ edit members = some edited ∧
      c.readJson t path = .ok (some (.obj members)) ∧
      c.readJson t' path = .ok (some (.obj edited)) := by
  obtain ⟨s, hs, hread⟩ := Context.readText?_of_rewrite h
  obtain ⟨members, edited, hm, he, hm', hreturn⟩ := Amendment.apply_members ha hedit hs
  refine ⟨members, edited, Amendment.fits_membersOf hm, he, readJson_of_members hm,
    readJson_of_members ?_⟩
  rw [hread hreturn, hm']

/-! ## The three repairs -/

theorem strict_kept (h : StrictTyping.fix c t f = (.ok true, t')) : ∃ settings settings',
    c.readJson t "tsconfig.json" = .ok (some (.obj settings)) ∧
    c.readJson t' "tsconfig.json" = .ok (some (.obj settings')) ∧
    GivesIn "compilerOptions" "strict" (.bool true) settings settings' := by
  rw [fix_strict] at h
  obtain ⟨settings, settings', -, hedit, hbefore, hafter⟩ :=
    read_of_rewrite (fun _ => rfl) Amendment.fits_strictMembers h
  refine ⟨settings, settings', hbefore, hafter, ?_⟩
  unfold Amendment.strictMembers at hedit
  split at hedit
  · cases hedit
  · cases hedit
    exact givesIn_put settings _ _ _

theorem engine_kept (h : EngineVersion.fix c t f = (.ok true, t')) : ∃ manifest manifest',
    c.readJson t "package.json" = .ok (some (.obj manifest)) ∧
    c.readJson t' "package.json" = .ok (some (.obj manifest')) ∧
    GivesIn "engines" "node" (.str ">=18") manifest manifest' := by
  rw [fix_engine] at h
  obtain ⟨manifest, manifest', -, hedit, hbefore, hafter⟩ :=
    read_of_rewrite (fun _ => rfl) (fun h he => (kept_engineMembers h he).1.fits) h
  refine ⟨manifest, manifest', hbefore, hafter, ?_⟩
  unfold Amendment.engineMembers at hedit
  split at hedit
  · cases hedit
  · cases hedit
    exact givesIn_put manifest _ _ _

/-- A repair that is made is made for the dependency that the finding is about, if the names of the
workspaces hold no blanks. -/
theorem localize_of_fix
    (hblank : ∀ name ∈ WorkspaceProtocol.names c, ∀ ch ∈ name.nearest.toList, Text.isBlank ch = false)
    {w : Workspace} {dependency version : Label}
    (hname : dependency ∈ WorkspaceProtocol.names c)
    (h : WorkspaceProtocol.fix c t (plainDependency w dependency version) = (.ok true, t')) :
    c.rewrite t (Monorepo.fileIn w "package.json") (.localize dependency) = (.ok true, t') := by
  have hword : IsWord dependency := by
    refine ⟨?_, hblank dependency hname⟩
    rintro rfl
    have hnone : WorkspaceProtocol.namedIn? (WorkspaceProtocol.message (.text "") version) = none := by
      cases hnamed : WorkspaceProtocol.namedIn? (WorkspaceProtocol.message (.text "") version) with
      | none => rfl
      | some word =>
        obtain ⟨⟨hne, -⟩, rfl | ⟨rest, hrest⟩⟩ := named_message_iff.mp hnamed
        · exact absurd rfl hne
        · have hpoints := congrArg Label.points hrest
          rw [Label.points_append, Label.points_append] at hpoints
          have hempty := (List.append_eq_nil_iff.mp hpoints.symm).1
          exact absurd (List.append_eq_nil_iff.mp hempty).2 (by decide)
    rw [fix_plainDependency, hnone] at h
    cases h
  have hnamed : WorkspaceProtocol.namedIn? (WorkspaceProtocol.message dependency version) =
      some dependency := named_message_iff.mpr ⟨hword, .inl rfl⟩
  rw [fix_plainDependency, hnamed, Option.filter_some, if_pos (List.contains_iff_mem.mpr hname)] at h
  exact h

theorem local_kept
    (hblank : ∀ name ∈ WorkspaceProtocol.names c, ∀ ch ∈ name.nearest.toList, Text.isBlank ch = false)
    (hf : f ∈ WorkspaceProtocol.check c t) (h : WorkspaceProtocol.fix c t f = (.ok true, t')) :
    ∃ dependency version manifest, dependency ∈ WorkspaceProtocol.names c ∧
      f.message = WorkspaceProtocol.message dependency version ∧
      c.readJson t f.file = .ok (some (.obj manifest)) ∧
      c.readJson t' f.file = .ok (some (.obj (referTo dependency manifest))) := by
  obtain ⟨-, w, -, -, -, dependency, -, version, -, -, hname, rfl⟩ := mem_protocol_iff.mp hf
  have hname := List.contains_iff_mem.mp hname
  obtain ⟨manifest, localized, hread, hedit, hbefore, hafter⟩ :=
    read_of_rewrite (fun _ => rfl) (fun h he => (kept_localMembers h he).1.fits)
      (localize_of_fix hblank hname h)
  rw [localMembers_referTo hread hedit] at hafter
  exact ⟨dependency, version, manifest, hname, rfl, hbefore, hafter⟩

/-- Wherever a repair of compiler settings or of a manifest was made, the value that is read from the
file is the one before but for the member that the repair is about: the strict option, the version of
the engine, or the plain versions of the reported dependency. -/
theorem rest_kept (c : Context) (t t' : Tree) (f : Finding) :
    (StrictTyping.fix c t f = (.ok true, t') → ∃ settings settings',
      c.readJson t "tsconfig.json" = .ok (some (.obj settings)) ∧
      c.readJson t' "tsconfig.json" = .ok (some (.obj settings')) ∧
      GivesIn "compilerOptions" "strict" (.bool true) settings settings') ∧
    (EngineVersion.fix c t f = (.ok true, t') → ∃ manifest manifest',
      c.readJson t "package.json" = .ok (some (.obj manifest)) ∧
      c.readJson t' "package.json" = .ok (some (.obj manifest')) ∧
      GivesIn "engines" "node" (.str ">=18") manifest manifest') ∧
    ((∀ name ∈ WorkspaceProtocol.names c, ∀ ch ∈ name.nearest.toList, Text.isBlank ch = false) →
      f ∈ WorkspaceProtocol.check c t → WorkspaceProtocol.fix c t f = (.ok true, t') →
      ∃ dependency version manifest, dependency ∈ WorkspaceProtocol.names c ∧
        f.message = WorkspaceProtocol.message dependency version ∧
        c.readJson t f.file = .ok (some (.obj manifest)) ∧
        c.readJson t' f.file = .ok (some (.obj (referTo dependency manifest)))) :=
  ⟨strict_kept, engine_kept, local_kept⟩

/-! ## A package with all three -/

/-- A package with compiler settings and no version of the engine, which depends on a version of the
other package, in a folder of its own. -/
def mixedTree : Tree := ⟨[(["r"], .folder), (["r", "b"], .folder),
  (["r", "tsconfig.json"], .file "\x7b\"compilerOptions\":\x7b\"strict\":0,\"lib\":[]\x7d\x7d".toUTF8),
  (["r", "package.json"], .file "\x7b\"engines\":\"18\",\"name\":\"a\"\x7d".toUTF8),
  (["r", "b", "package.json"], .file
    "\x7b\"dependencies\":\x7b\"a\":\"1\",\"c\":\"1\"\x7d,\"devDependencies\":[]\x7d".toUTF8)]⟩

/-- The package that depends on the other one. -/
def mixedPackage : Workspace := ⟨"b", "b", "/r/b", .generic, true⟩

/-- The context of the packages. -/
def mixedContext : Context :=
  .forRoot ["r"] ⟨.generic, "r", "/r", .unknown, true, true, none,
    some [⟨"a", "", "/r", .generic, true⟩, mixedPackage], none, none, none⟩ false "" []

/-- What is wrong with the version. -/
def mixedFinding : Finding := plainDependency mixedPackage "a" "1"

theorem rest_kept_mixedTree :
    (∃ t', StrictTyping.fix mixedContext mixedTree mixedFinding = (.ok true, t') ∧
      ∃ settings settings', mixedContext.readJson mixedTree "tsconfig.json" = .ok (some (.obj settings)) ∧
        mixedContext.readJson t' "tsconfig.json" = .ok (some (.obj settings')) ∧
        GivesIn "compilerOptions" "strict" (.bool true) settings settings') ∧
    (∃ t', EngineVersion.fix mixedContext mixedTree mixedFinding = (.ok true, t') ∧
      ∃ manifest manifest',
        mixedContext.readJson mixedTree "package.json" = .ok (some (.obj manifest)) ∧
        mixedContext.readJson t' "package.json" = .ok (some (.obj manifest')) ∧
        GivesIn "engines" "node" (.str ">=18") manifest manifest') ∧
    ∃ t', WorkspaceProtocol.fix mixedContext mixedTree mixedFinding = (.ok true, t') ∧
      ∃ manifest, mixedContext.readJson mixedTree "b/package.json" = .ok (some (.obj manifest)) ∧
        mixedContext.readJson t' "b/package.json" = .ok (some (.obj (referTo "a" manifest))) := by
  have hstrict : (StrictTyping.fix mixedContext mixedTree mixedFinding).1 = .ok true := by
    decide +kernel
  have hengine : (EngineVersion.fix mixedContext mixedTree mixedFinding).1 = .ok true := by
    decide +kernel
  have hlocal : (WorkspaceProtocol.fix mixedContext mixedTree mixedFinding).1 = .ok true := by
    decide +kernel
  have hstrict := Prod.fst_eq_iff.mp hstrict
  have hengine := Prod.fst_eq_iff.mp hengine
  have hlocal := Prod.fst_eq_iff.mp hlocal
  have hblank : ∀ name ∈ WorkspaceProtocol.names mixedContext, ∀ ch ∈ name.nearest.toList,
      Text.isBlank ch = false := by
    have hall : ∀ name ∈ WorkspaceProtocol.names mixedContext,
        name.nearest.toList.all (!Text.isBlank ·) = true := by decide
    intro name hname ch hch
    exact (Bool.not_eq_true' _).mp (List.all_eq_true.mp (hall name hname) ch hch)
  have hf : mixedFinding ∈ WorkspaceProtocol.check mixedContext mixedTree := by decide +kernel
  obtain ⟨dependency, version, manifest, hname, hmessage, hbefore, hafter⟩ :=
    (rest_kept mixedContext mixedTree _ mixedFinding).2.2 hblank hf hlocal
  obtain rfl : dependency = "a" :=
    eq_of_message (hblank _ hname) (hblank "a" (by decide)) hmessage.symm
  exact ⟨⟨_, hstrict, (rest_kept mixedContext mixedTree _ mixedFinding).1 hstrict⟩,
    ⟨_, hengine, (rest_kept mixedContext mixedTree _ mixedFinding).2.1 hengine⟩,
    _, hlocal, manifest, hbefore, hafter⟩

end Checkup
