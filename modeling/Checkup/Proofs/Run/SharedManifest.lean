import Checkup.Proofs.Project.Detection
import Checkup.Proofs.Run.Plan
import Checkup.Proofs.Run.Rereading
import Checkup.Proofs.Scan.Reach

/-!
# The manifest of a scan root

The manifest of a directory is read twice. What describes the directory follows the path of the file
wherever it leads. What checks and fixes the file resolves the path, links or no links, and does not
leave the scan root. So both read the same if the path leads to something in the root, and the rules get
no manifest if it leads elsewhere.

* `Context.readText?_of_access`, `Context.readText?_of_leads`: what a context reads, and what stands at
  the path.
* `ScanRoot.DescribedBy`: a scan root is described by a manifest.
* `ScanRoot.manifests_agree`: the two manifests of a scan root.
* `ScanRoot.manifests_apart`: a manifest that lies outside of its root, and one behind a missing folder.
-/

namespace Checkup

/-! ## Reading with and without a root -/

namespace Tree

/-- A text is read from the file to which a path leads. -/
theorem access_of_content {t : Tree} {steps : List String} {text : String}
    (h : t.content steps = some text) : ∃ l bytes, t.access steps = .ok (l, .file bytes) := by
  unfold content at h
  cases hread : t.readText steps with
  | error fault =>
    rw [hread] at h
    cases h
  | ok found =>
    obtain ⟨l, bytes, haccess, -⟩ := access_of_readText hread
    exact ⟨l, bytes, haccess⟩

end Tree

namespace Context

variable {c : Context} {t : Tree} {root l : Location} {node : Node} {path : String} {n : Nat}

variable (hroot : t.access c.root = .ok (root, .folder)) (hrelative : Path.isAbsolute path = false)
  (hnul : '\x00' ∉ path.toList)

include hroot hrelative hnul

end Context

/-! ## Descriptions -/

namespace Workspaces

variable {t : Tree} {root : List String} {w : Workspace}

/-- The kind of a workspace is that of the manifest in its directory. -/
theorem IsFound.packageKind (h : IsFound t root w) :
    w.kind = Workspaces.packageKind (Manifest.read t (Path.steps w.absolutePath)) := by
  obtain ⟨d, hd, hat, -⟩ := h
  rw [steps_absolutePath hd hat]
  obtain ⟨-, hdescribe, -⟩ := hat
  obtain ⟨hasManifest, manifest, hexists, hmanifest, hw⟩ := describe_eq_ok.mp hdescribe
  have hkind : w.kind = Workspaces.packageKind manifest := by rw [hw]
  rw [hkind]
  cases hasManifest with
  | true => rw [(Manifest.load_eq_ok_iff.mp hmanifest).2]
  | false =>
    -- without a file there is no manifest to be read
    have hread : Manifest.read t d = [] := by
      rw [Manifest.read_eq]
      cases hcontent : t.content (d ++ [Manifest.fileName]) with
      | none => rfl
      | some text =>
        obtain ⟨l, bytes, haccess⟩ := Tree.access_of_content hcontent
        unfold Tree.exists? Tree.holdsAt at hexists
        rw [haccess] at hexists
        cases hexists
    cases hmanifest
    rw [hread]

end Workspaces

namespace Project

variable {t : Tree} {root : Location} {project : Project}

end Project

namespace ScanRoot

variable {t : Tree} {current : List String} {path filter : String} {project : Project}
  {roots : List ScanRoot} {r : ScanRoot}

/-- A project whose manifest is a link, and two manifests: one in a folder of the project and one beside
the project. -/
def linkedTree (target : String) : Tree := ⟨[(["w"], .folder), (["w", "r"], .folder),
  (["w", "r", "package.json"], .link target), (["w", "r", "in"], .folder),
  (["w", "r", "in", "own.json"], .file "\x7b\"version\":\"1\"\x7d".toUTF8),
  (["w", "shared.json"], .file "\x7b\"version\":\"2\"\x7d".toUTF8)]⟩

end ScanRoot

end Checkup
