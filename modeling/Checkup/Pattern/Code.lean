import Checkup.Pattern.Basic

/-!
# Constructs in source text

Patterns for the few constructs of source text that the rules look at: hooks, browser names, markup
tags, imports and exports. None of them parses the language.
-/

namespace Checkup.Pattern

/-- The hooks of the user-interface library. -/
def hookNames : List String :=
  ["useState", "useEffect", "useRef", "useReducer", "useCallback", "useMemo", "useContext"]

/-- The names whose use makes a file a client file, in the order in which they are looked for. -/
def clientNames : List String :=
  hookNames ++ ["onClick", "onChange", "onSubmit", "window", "document"]

/-- A name as a whole word. -/
def wholeWord (name : String) : Pattern := sequence [edge, text name, edge]

/-- The call of a hook; keeps its name. -/
def hookCall : Pattern := sequence [edge, keep (anyText hookNames), blanks, char '(']

/-- The letter i without regard to case; the dotless i and the dotted capital count as well. -/
def anyCaseI : Pattern := one fun c => c == 'i' || c == 'I' || c == 'ı' || c == 'İ'

/-- An ASCII letter other than i, k and s, without regard to case. -/
def anyCase (letter : Char) : Pattern := one fun c => c.toLower == letter

/-- The start of an image tag. -/
def imageTag : Pattern :=
  sequence [char '<', anyCaseI, anyCase 'm', anyCase 'g', one Text.isBlank]

/-- A quotation mark. -/
def isQuote (c : Char) : Bool := c == '"' || c == '\x27'

/-- An anchor tag with a link to a path; keeps the path. -/
def internalAnchor : Pattern :=
  sequence [char '<', anyCase 'a', one Text.isBlank, run (· != '>'),
    anyCase 'h', anyCase 'r', anyCase 'e', anyCase 'f', char '=', one isQuote,
    keep (sequence [char '/', run fun c => !isQuote c])]

/-- An import of any form with its specifier in quotes; keeps the specifier. -/
def importSpecifier : Pattern :=
  sequence [
    anyOf [
      sequence [edge, text "from", blanks],
      sequence [edge, text "import", blanks, optional (char '('), blanks],
      sequence [edge, text "require", blanks, char '(', blanks]],
    one isQuote, keep (run1 fun c => !isQuote c && c != '\n'), one isQuote]

/-- The declarations that export a name; each keeps the name. -/
def exportDeclarations : List Pattern := [
  sequence [text "export", blanks1, optional (sequence [text "async", blanks1]), text "function",
    optional (char '*'), blanks1, keep word],
  sequence [text "export", blanks1, anyText ["const", "let", "var"], blanks1, keep word],
  sequence [text "export", blanks1, optional (sequence [text "abstract", blanks1]), text "class",
    blanks1, keep word],
  sequence [text "export", blanks1, anyText ["interface", "type", "enum"], blanks1, keep word]]

/-- The use of a component: its opening tag, or an import whose line names it. -/
def componentUse (name : String) : Pattern :=
  either
    (sequence [char '<', text name, one fun c => Text.isBlank c || c == '/' || c == '>'])
    (sequence [text "import", run (· != '\n'), text name])

/-- The words of a text: its longest runs of word characters. -/
def wordsOf (text : List Char) : List (List Char) :=
  (Text.splitWhere (!Text.isWord ·) text).filter (!·.isEmpty)

end Checkup.Pattern
