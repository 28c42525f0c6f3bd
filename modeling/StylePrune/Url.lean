import StylePrune.Text.Quoted
import StylePrune.Url.Host

/-!
Locators of pages and sheets: their parts, how they are written, and how a reference is resolved
against the place where it stands.
-/

set_option autoImplicit false

namespace StylePrune

/-- `params` are what follows a semicolon in the last segment of the path. -/
structure Url where
  scheme : Text
  netloc : Text
  path : Text
  params : Text
  query : Text
  fragment : Text
  deriving DecidableEq, Repr

namespace Url

/-- Why a text is no locator. Only what stands after two slashes can be at fault. -/
inductive Error where
  | brackets
  | futureAddress
  | notAnAddress (host : Text)
  | dottedInBrackets
  | foldsToDelimiter (netloc : Text)
  deriving DecidableEq, Repr

def Error.message : Error → Text
  | .brackets => "Invalid IPv6 URL"
  | .futureAddress => "IPvFuture address is invalid"
  | .notAnAddress host => Text.quoted host ++ " does not appear to be an IPv4 or IPv6 address"
  | .dottedInBrackets => "An IPv4 address cannot be in brackets"
  | .foldsToDelimiter netloc =>
    "netloc '" ++ netloc ++ "' contains invalid characters under NFKC normalization"

def isSchemeChar (c : CodePoint) : Bool := c.isAlphanum || c == '+' || c == '-' || c == '.'

/-- The scheme before the first colon, and the rest. -/
def cutScheme? (s : Text) : Option (Text × Text) :=
  match Text.cutAt? [':'] s with
  | some (scheme, rest) =>
    if (scheme.head?.any CodePoint.isAlpha) && scheme.all isSchemeChar then some (Text.asciiLower scheme, rest)
    else none
  | none => none

/-- Schemes under which a reference is relative to its place. -/
def relativeSchemes : List Text :=
  ["", "ftp", "http", "gopher", "nntp", "imap", "wais", "file", "https", "shttp", "mms", "prospero",
    "rtsp", "rtsps", "rtspu", "sftp", "svn", "svn+ssh", "ws", "wss"]

/-- Schemes whose locators name a host. -/
def netlocSchemes : List Text :=
  ["", "ftp", "http", "gopher", "nntp", "telnet", "imap", "wais", "file", "mms", "https", "shttp",
    "snews", "prospero", "rtsp", "rtsps", "rtspu", "rsync", "svn", "svn+ssh", "sftp", "nfs", "git",
    "git+ssh", "ws", "wss"]

def paramsSchemes : List Text :=
  ["", "ftp", "hdl", "prospero", "http", "imap", "https", "shttp", "rtsp", "rtsps", "rtspu", "sip",
    "sips", "mms", "sftp", "tel"]

/-- Characters that compatibility folding turns into a delimiter, alone or with others. -/
def foldsToDelimiter (c : CodePoint) : Bool :=
  [0x2047, 0x2048, 0x2049, 0x2100, 0x2101, 0x2105, 0x2106, 0x2A74, 0xFE13, 0xFE16, 0xFE55, 0xFE56,
    0xFE5F, 0xFE6B, 0xFF03, 0xFF0F, 0xFF1A, 0xFF1F, 0xFF20].contains c.toNat

def checkBracketedHost (host : Text) : Except Error Unit :=
  if host.head? = some (.char 'v') then if isFutureAddress host then .ok () else .error .futureAddress
  else if isDottedAddress host then .error .dottedInBrackets
  else if isColonAddress host then .ok ()
  else .error (.notAnAddress host)

/-- Brackets come in pairs, around the host alone. -/
def checkNetloc (netloc : Text) : Except Error Unit :=
  let opens := netloc.contains '['
  let closes := netloc.contains ']'
  let checked : Except Error Unit :=
    if opens != closes then .error .brackets
    else if !opens then .ok ()
    else
      let host := match Text.cutAtLast? ['@'] netloc with
        | some (_, host) => host
        | none => netloc
      match Text.cutAt? ['['] host with
      | some (before, inside) =>
        let name := inside.takeWhile (· ≠ .char ']')
        let number := inside.drop (name.length + 1)
        if before ≠ [] ∨ (number ≠ [] ∧ number.head? ≠ some (.char ':')) then .error .brackets
        else checkBracketedHost name
      | none => checkBracketedHost (host.takeWhile (· ≠ .char ':'))
  match checked with
  | .error e => .error e
  | .ok () => if netloc.any foldsToDelimiter then .error (.foldsToDelimiter netloc) else .ok ()

/-- Cuts at the first `c`; without one the second part is empty. -/
def cutOptional (c : CodePoint) (s : Text) : Text × Text := (Text.cutAt? [c] s).getD (s, [])

/-- Cuts the params off a path: at the first semicolon of the last segment. -/
def cutParams (s : Text) : Text × Text :=
  match Text.cutAtLast? ['/'] s with
  | some (dirs, last) => let r := cutOptional ';' last; (dirs ++ .char '/' :: r.1, r.2)
  | none => cutOptional ';' s

/-- Leading control characters and spaces, and all tabs and newlines, do not count. -/
def sanitize (s : Text) : Text :=
  (s.dropWhile fun c => c.toNat ≤ 0x20).filter fun (c : CodePoint) => c != '\t' && c != '\n' && c != '\r'

/-- The parts of a text; `scheme` is the one that holds where it names none. -/
def parseUnder (scheme s : Text) : Except Error Url :=
  let s := sanitize s
  let (scheme, s) := (cutScheme? s).getD (scheme, s)
  let split := match Text.after? "//" s with
    | some r => (r.takeWhile fun (c : CodePoint) => c != '/' && c != '?' && c != '#',
        r.dropWhile fun (c : CodePoint) => c != '/' && c != '?' && c != '#')
    | none => ([], s)
  match checkNetloc split.1 with
  | .error e => .error e
  | .ok () =>
    let hash := cutOptional '#' split.2
    let mark := cutOptional '?' hash.1
    let path := if scheme ∈ paramsSchemes then cutParams mark.1 else (mark.1, [])
    .ok ⟨scheme, split.1, path.1, path.2, mark.2, hash.2⟩

def parse (s : Text) : Except Error Url := parseUnder [] s

/-- Empty parts are written without their delimiter. -/
def render (u : Url) : Text :=
  let path := u.path ++ if u.params = [] then [] else .char ';' :: u.params
  let located :=
    if u.netloc ≠ [] ∨ (u.scheme ≠ [] ∧ u.scheme ∈ netlocSchemes ∧ !Text.startsWith path "//") then
      "//" ++ u.netloc ++ (if path ≠ [] ∧ path.head? ≠ some (.char '/') then .char '/' :: path else path)
    else path
  (if u.scheme = [] then [] else u.scheme ++ [.char ':']) ++ located ++
  (if u.query = [] then [] else .char '?' :: u.query) ++
  (if u.fragment = [] then [] else .char '#' :: u.fragment)

/-- The segments that a reference with the given path stands for in a base with the given path. -/
def mergeSegments (base ref : Text) : List Text :=
  if ref.head? = some (.char '/') then Text.splitOn '/' ref
  else
    let dirs := Text.splitOn '/' base
    let dirs := if dirs.getLast? = some [] then dirs else dirs.dropLast
    match dirs ++ Text.splitOn '/' ref with
    | [] => []
    | s :: rest => s :: (rest.dropLast.filter (· ≠ []) ++ rest.getLast?.toList)

/-- Follows segments from `done`, the ones reached so far in reverse. -/
def followSegments (done : List Text) : List Text → List Text
  | [] => done.reverse
  | s :: ss =>
    if s = ".." then followSegments done.tail ss
    else if s = "." then followSegments done ss
    else followSegments (s :: done) ss

/-- The path without dot segments; one at the end leaves a slash. -/
def resolvePath (segments : List Text) : Text :=
  let ends := if segments.getLast? = some "." ∨ segments.getLast? = some ".." then [[]] else []
  let path := Text.joinWith ['/'] (followSegments [] segments ++ ends)
  if path = [] then ['/'] else path

/-- The locator that `ref` means in a document at `base`. -/
def join (base ref : Text) : Except Error Text :=
  if base = [] then .ok ref
  else if ref = [] then .ok base
  else do
    let b ← parse base
    let r ← parseUnder b.scheme ref
    if r.scheme ≠ b.scheme ∨ r.scheme ∉ relativeSchemes then return ref
    if r.scheme ∈ netlocSchemes ∧ r.netloc ≠ [] then return r.render
    let r := if r.scheme ∈ netlocSchemes then { r with netloc := b.netloc } else r
    if r.path = [] ∧ r.params = [] then
      return { r with path := b.path, params := b.params,
                      query := if r.query = [] then b.query else r.query }.render
    return { r with path := resolvePath (mergeSegments b.path r.path) }.render

end Url
end StylePrune
