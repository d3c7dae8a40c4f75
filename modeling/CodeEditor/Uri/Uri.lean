import CodeEditor.Foundation.Text

/-!
# File URIs

Model of `URI.file` and `uriToFsPath` in `uri.ts`. A URI is made without the strict mode,
as `URI.file` makes it. Whether the platform is Windows is a parameter.
-/

namespace CodeEditor.Uri

def slash : CodeUnit := 47

def backslash : CodeUnit := 92

def colon : CodeUnit := 58

/-- The components of a URI. -/
structure URI where
  scheme : Text
  authority : Text
  path : Text
  query : Text
  fragment : Text
  deriving DecidableEq

/-- The errors that `_validateUri` throws. -/
inductive UriError
  | schemeContainsIllegalCharacters
  | pathWithoutSlash
  | pathWithTwoSlashes
  deriving DecidableEq

def UriError.message : UriError → String
  | schemeContainsIllegalCharacters => "[UriError]: Scheme contains illegal characters."
  | pathWithoutSlash =>
    "[UriError]: If a URI contains an authority component, then the path component must " ++
      "either be empty or begin with a slash (\"/\") character"
  | pathWithTwoSlashes =>
    "[UriError]: If a URI does not contain an authority component, then the path cannot " ++
      "begin with two slash characters (\"//\")"

/-- The schemes `file`, `http` and `https`. -/
def fileScheme : Text := [102, 105, 108, 101]

def httpScheme : Text := [104, 116, 116, 112]

def httpsScheme : Text := [104, 116, 116, 112, 115]

def isUpperCase (unit : CodeUnit) : Bool := 65 ≤ unit && unit ≤ 90

def isLowerCase (unit : CodeUnit) : Bool := 97 ≤ unit && unit ≤ 122

def isLetter (unit : CodeUnit) : Bool := isUpperCase unit || isLowerCase unit

/-- What `\w` matches. -/
def isWord (unit : CodeUnit) : Bool :=
  isLetter unit || (48 ≤ unit && unit ≤ 57) || unit == 95

/-- `_schemePattern`, which is `/^\w[\w\d+.-]*$/`. -/
def schemePattern : Text → Bool
  | [] => false
  | unit :: rest =>
    isWord unit &&
      rest.all fun next => isWord next || next == 43 || next == 46 || next == 45

/-- `_singleSlashStart`. -/
def singleSlashStart (path : Text) : Bool := path[0]? == some slash

/-- `_doubleSlashStart`. -/
def doubleSlashStart (path : Text) : Bool :=
  path[0]? == some slash && path[1]? == some slash

def validateUri (ret : URI) : Except UriError Unit :=
  if ret.scheme ≠ [] ∧ ¬schemePattern ret.scheme then
    .error .schemeContainsIllegalCharacters
  else if ret.path ≠ [] then
    if ret.authority ≠ [] then
      if ¬singleSlashStart ret.path then .error .pathWithoutSlash else .ok ()
    else
      if doubleSlashStart ret.path then .error .pathWithTwoSlashes else .ok ()
  else .ok ()

/-- A URI without a scheme is a file URI. -/
def schemeFix (scheme : Text) : Text :=
  if scheme = [] then fileScheme else scheme

def referenceResolution (scheme path : Text) : Text :=
  if scheme = httpsScheme ∨ scheme = httpScheme ∨ scheme = fileScheme then
    if path = [] then [slash]
    else if path[0]? ≠ some slash then slash :: path
    else path
  else path

/-- The constructor of `Uri` for components that are strings. -/
def newUri (scheme authority path query fragment : Text) : Except UriError URI :=
  let uri : URI :=
    { scheme := schemeFix scheme
      authority
      path := referenceResolution (schemeFix scheme) path
      query
      fragment }
  (validateUri uri).map fun _ => uri

/-- `String.replace` of every occurrence of one code unit. -/
def replaceUnit (old new : CodeUnit) (text : Text) : Text :=
  text.map fun unit => if unit = old then new else unit

/-- The authority of a path that starts with two slashes, and the rest of the path. -/
def authorityAndPath (path : Text) : Text × Text :=
  if path[0]? = some slash ∧ path[1]? = some slash then
    match (path.drop 2).idxOf? slash with
    | none => (path.drop 2, [slash])
    | some idx =>
      let rest := path.drop (2 + idx)
      (substring path 2 (2 + idx), if rest = [] then [slash] else rest)
  else ([], path)

def URI.file (isWindows : Bool) (path : Text) : Except UriError URI :=
  let path := if isWindows then replaceUnit backslash slash path else path
  newUri fileScheme (authorityAndPath path).1 (authorityAndPath path).2 [] []

/-- `String.toLowerCase` of a letter of ASCII. -/
def toLowerCase (letter : CodeUnit) : CodeUnit :=
  if isUpperCase letter then letter + 32 else letter

/-- A path starts with a slash, a letter and a colon. -/
def startsWithDrive (path : Text) : Bool :=
  path[0]? == some slash && path[1]?.any isLetter && path[2]? == some colon

def uriToFsPath (isWindows : Bool) (uri : URI) (keepDriveLetterCasing : Bool) : Text :=
  let value :=
    if uri.authority ≠ [] ∧ 1 < uri.path.length ∧ uri.scheme = fileScheme then
      -- unc path: file://shares/c$/far/boo
      [slash, slash] ++ uri.authority ++ uri.path
    else if startsWithDrive uri.path then
      if ¬keepDriveLetterCasing then
        -- windows drive letter: file:///c:/far/boo
        (uri.path[1]?.map toLowerCase).toList ++ uri.path.drop 2
      else uri.path.drop 1
    else uri.path
  if isWindows then replaceUnit slash backslash value else value

/-- The getter `fsPath`. -/
def URI.fsPath (isWindows : Bool) (uri : URI) : Text := uriToFsPath isWindows uri false

end CodeEditor.Uri
