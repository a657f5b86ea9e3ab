import Checkup.Text.Search

/-!
# Targets of requests

A request names what it is for by a target: a path, or an address with a path in it, and behind the
path a query and a fragment that mean nothing here.

The path is taken relative to the address of the service. Its steps `.` and `..` are resolved first,
then escapes are read twice, by the sender and by the receiver.

* `unescape_of_plain`: a text without a percent sign has no escapes.
-/

namespace Checkup.Service.Target

/-- A character of a scheme behind the first one. -/
def isSchemeChar (c : Char) : Bool := c.isAlphanum || c == '+' || c == '.' || c == '-'

/-- The scheme before a colon, if there is one, and what follows. -/
def takeScheme (s : List Char) : Bool × List Char :=
  let name := s.takeWhile isSchemeChar
  match s.drop name.length with
  | ':' :: rest => if name.head?.any Char.isAlpha then (true, rest) else (false, s)
  | _ => (false, s)

/-- The host behind two slashes, and what follows. -/
def takeHost : List Char → List Char × List Char
  | '/' :: '/' :: rest => (rest.takeWhile (· != '/'), rest.dropWhile (· != '/'))
  | s => ([], s)

/-- One step of a path after those before it: `.` leads nowhere and `..` back. -/
def pushStep (steps : List (List Char)) (step : List Char) : List (List Char) :=
  if step = ['.'] then steps
  else if step = ['.', '.'] then (if steps = [[]] then steps else steps.dropLast)
  else steps ++ [step]

/-- The steps with slashes between them. -/
def joinSteps : List (List Char) → List Char
  | [] => []
  | [step] => step
  | step :: rest => step ++ '/' :: joinSteps rest

/-- The path without steps `.` and `..`. -/
def normalize (s : List Char) : List Char := joinSteps ((Text.splitOn '/' s).foldl pushStep [])

/-- The character with a code below 128; a byte from there on begins no name of the service. -/
def byteChar (n : Nat) : Char := if n < 0x80 then Char.ofNat n else '\ufffd'

/-- The text with its escapes of two hexadecimal digits read once. -/
def unescape : List Char → List Char
  | '%' :: a :: b :: rest =>
    match Text.hexValue? a, Text.hexValue? b with
    | some x, some y => byteChar (x * 16 + y) :: unescape rest
    | _, _ => '%' :: unescape (a :: b :: rest)
  | c :: rest => c :: unescape rest
  | [] => []

/-- The path of a target as it is written there, beginning with one slash unless the target is a
full address. -/
def writtenPath (target : List Char) : List Char :=
  let (hasScheme, rest) := takeScheme (target.takeWhile fun c => c != '?' && c != '#')
  let (host, path) := takeHost rest
  if hasScheme && !host.isEmpty then path
  else '/' :: Text.dropLeading (· == '/') path

/-- The path that a target stands for. -/
def path (target : String) : String :=
  String.ofList (unescape (unescape (normalize (writtenPath target.toList))))

theorem unescape_of_plain {s : List Char} (h : '%' ∉ s) : unescape s = s := by
  induction s with
  | nil => rfl
  | cons c rest ih =>
    have hc : c ≠ '%' := fun he => h (he ▸ List.mem_cons_self)
    have hrest : '%' ∉ rest := fun hm => h (List.mem_cons_of_mem c hm)
    cases rest with
    | nil => simp [unescape]
    | cons a rest =>
      cases rest with
      | nil => simp_all [unescape]
      | cons b rest => simp_all [unescape]

end Checkup.Service.Target
