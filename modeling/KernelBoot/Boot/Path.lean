import KernelBoot.Text.Split

/-!
Paths whose parts are separated by slashes, as archives and storages use them.
-/
namespace KernelBoot.Path

def isSlash (c : Char) : Bool := c == '/'

def joinChars (base name : List Char) : List Char :=
  let base := (base.reverse.dropWhile isSlash).reverse
  let name := name.dropWhile isSlash
  if base.isEmpty then name else if name.isEmpty then base else base ++ '/' :: name

def join (base name : String) : String := String.ofList (joinChars base.toList name.toList)

/-- The path in front of each slash. `passed` is what lies before, last character first. -/
def ancestorsFrom (passed : List Char) : List Char → List (List Char)
  | [] => []
  | c :: rest =>
    if isSlash c then passed.reverse :: ancestorsFrom (c :: passed) rest
    else ancestorsFrom (c :: passed) rest

def ancestors (path : String) : List String := (ancestorsFrom [] path.toList).map String.ofList

/-- The path of each part: `a`, `a/b`, `a/b/c`. Empty parts are dropped. -/
def chainFrom (base : List Char) : List (List Char) → List (List Char)
  | [] => []
  | part :: rest => joinChars base part :: chainFrom (joinChars base part) rest

def chain (path : String) : List String :=
  (chainFrom [] (Text.components isSlash path.toList)).map String.ofList

end KernelBoot.Path
