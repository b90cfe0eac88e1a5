import TravLang.Stdlib.Bytes

/-!
# File names (`stdlib/filename.ml`, Unix)

Strings are sequences of bytes. A scan of the source that walks an index down from the end of the
string is a scan of the reversed list.
-/

namespace TravLang

namespace Filename

def dirSep : UInt8 := 0x2F

def currentDirName : Bytes := [0x2E]

def isDirSep (c : UInt8) : Bool := c == dirSep

/-- `generic_basename`: the last component, without the separators that follow it. -/
def basename (name : Bytes) : Bytes :=
  if name = [] then currentDirName
  else
    match name.reverse.dropWhile isDirSep with
    | [] => name.take 1
    | rest => (rest.takeWhile fun c => !isDirSep c).reverse

def isRelative (n : Bytes) : Bool := n.head? != some dirSep

def isImplicit (n : Bytes) : Bool :=
  isRelative n && n.take 2 != [0x2E, 0x2F] && n.take 3 != [0x2E, 0x2E, 0x2F]

def concat (dirname filename : Bytes) : Bytes :=
  match dirname.getLast? with
  | none => dirname ++ filename
  | some c => if isDirSep c then dirname ++ filename else dirname ++ dirSep :: filename

end Filename

/-- `String.uncapitalize_ascii`. -/
def uncapitalizeAscii : Bytes → Bytes
  | [] => []
  | c :: s => (if 0x41 ≤ c ∧ c ≤ 0x5A then c + 32 else c) :: s

end TravLang
