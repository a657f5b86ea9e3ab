import Checkup.Proofs.Repair.Effect
import Checkup.Proofs.Repair.Findings
import Checkup.Proofs.Scan.ReadBack
import Checkup.Proofs.Text.Bytes

/-!
# What the client directive is put before

The repair of a missing client directive writes the directive and after it the text that it read. The
bytes of that text are those of the file only if no carriage return was among them: all line ends are
line feeds afterwards, on lines that the repair has nothing to do with, too.

* `bytes_of_directive`: what a repair writes, byte by byte.
* `rewritten_returnTree`: a file whose line ends change.
-/

namespace Checkup

open Application (hasClientMark ClientDirective.check ClientDirective.fix ClientDirective.directive)

variable {c : Context} {t : Tree} {f : Finding}

/-- A file is found to lack the directive if its text has no mark of a client. -/
theorem unmarked_of_check (hf : f ∈ ClientDirective.check c t) :
    ∃ text, c.readText? t f.file = some text ∧ hasClientMark text = false := by
  obtain ⟨path, -, -, text, htext, hmark, name, -, rfl⟩ := mem_directive_iff.mp hf
  exact ⟨text, (Amendment.filter_eq_some.mp htext).1, hmark⟩

/-- The repair of a file that lacks the directive puts the directive before its bytes and turns the
line ends among them into line feeds. So the old bytes follow unchanged exactly if they have no
carriage return. -/
theorem bytes_of_directive (hf : f ∈ ClientDirective.check c t) : ∃ l old new,
    c.access t f.file = .ok (l, .file old) ∧
    ClientDirective.fix c t f = (.ok true, t.put l (.file new)) ∧
    new.data.toList = ClientDirective.directive.toUTF8.data.toList ++ Text.feeds old.data.toList ∧
    (new.data.toList = ClientDirective.directive.toUTF8.data.toList ++ old.data.toList ↔
      13 ∉ old.data.toList) := by
  obtain ⟨text, hread, hmark⟩ := unmarked_of_check hf
  have happly : Amendment.direct.apply (some text) = some (ClientDirective.directive ++ text) := by
    unfold Amendment.apply
    dsimp only
    rw [Option.bind_some, hmark, if_neg Bool.false_ne_true]
  obtain ⟨l, old, haccess, hdecode, hrewrite⟩ := Context.rewrite_of_readText? hread happly
  have hbytes : (ClientDirective.directive ++ text).toUTF8.data.toList =
      ClientDirective.directive.toUTF8.data.toList ++ Text.feeds old.data.toList := by
    rw [← Text.toUTF8_of_decodeText hdecode, Text.utf8_toList, Text.utf8_toList, Text.utf8_toList,
      String.toList_append]
    exact List.flatMap_append
  refine ⟨l, old, _, haccess, (fix_directive f t).trans hrewrite, hbytes, ?_⟩
  rw [hbytes, List.append_cancel_left_eq, Text.feeds_eq_self_iff]

/-! ## Two files -/

/-- An application whose view ends its lines with line feeds. -/
def feedTree : Tree := ⟨[(["r"], .folder), (["r", "a.tsx"], .file "useState\n".toUTF8)]⟩

/-- An application whose view ends its lines with carriage returns and line feeds. -/
def returnTree : Tree := ⟨[(["r"], .folder), (["r", "a.tsx"], .file "useState\r\n".toUTF8)]⟩

/-- The context of the application. -/
def viewContext : Context :=
  .forRoot ["r"] ⟨.frameworkApp, "r", "/r", .unknown, false, false, none, none, none, none, none⟩
    false "" []

/-- The view lacks the directive. -/
def undirected : Finding :=
  (Application.ClientDirective.info.finding "a.tsx"
    "Uses useState but missing \"use client\" directive").asFixable

theorem bytes_of_directive_feedTree : ∃ l old new,
    viewContext.access feedTree "a.tsx" = .ok (l, .file old) ∧
    ClientDirective.fix viewContext feedTree undirected = (.ok true, feedTree.put l (.file new)) ∧
    new.data.toList = ClientDirective.directive.toUTF8.data.toList ++ old.data.toList := by
  have hf : undirected ∈ ClientDirective.check viewContext feedTree := by decide +kernel
  have hold : viewContext.access feedTree undirected.file =
      .ok (["r", "a.tsx"], .file "useState\n".toUTF8) := by decide +kernel
  obtain ⟨l, old, new, haccess, hfix, -, hsame⟩ := bytes_of_directive hf
  refine ⟨l, old, new, haccess, hfix, hsame.mpr ?_⟩
  rw [hold] at haccess
  cases haccess
  decide +kernel

/-- The line end of the view is another one after the repair. -/
theorem rewritten_returnTree : undirected ∈ ClientDirective.check viewContext returnTree ∧
    ClientDirective.fix viewContext returnTree undirected =
      (.ok true, returnTree.put ["r", "a.tsx"] (.file "\"use client\";\n\nuseState\n".toUTF8)) ∧
    ¬ "\"use client\";\n\nuseState\n".toUTF8.data.toList =
      "\"use client\";\n\n".toUTF8.data.toList ++ "useState\r\n".toUTF8.data.toList := by
  refine ⟨by decide +kernel, by decide +kernel, by decide +kernel⟩

end Checkup
