/-!
# Faults

Why an operation on files, or on what is in them, fails.
-/

namespace Checkup

/-- Why a file operation fails. -/
inductive Fault
  | missing
  | notFolder
  | isFolder
  | alreadyThere
  | nameTooLong
  | tooManyLinks
  | linkLoop (path : String)
  | nulByte
  | outsideRoot (path : String)
  | notText
  /-- A name holds half of a UTF-16 pair, which no bytes stand for. -/
  | notEncodable
  /-- A JSON value is nested deeper than the reader can go. -/
  | tooDeep
  deriving DecidableEq, Repr, Inhabited

/-- The text of a fault. -/
def Fault.message : Fault → String
  | missing => "[Errno 2] No such file or directory"
  | notFolder => "[Errno 20] Not a directory"
  | isFolder => "[Errno 21] Is a directory"
  | alreadyThere => "[Errno 17] File exists"
  | nameTooLong => "[Errno 36] File name too long"
  | tooManyLinks => "[Errno 40] Too many levels of symbolic links"
  | linkLoop path => "Symlink loop from '" ++ path ++ "'"
  | nulByte => "embedded null byte"
  | outsideRoot path => "Path escapes scan root: " ++ path
  | notText => "the file is not UTF-8 text"
  | notEncodable => "surrogates not allowed"
  | tooDeep => "maximum recursion depth exceeded"

end Checkup
