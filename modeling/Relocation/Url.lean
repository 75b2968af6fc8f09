import Relocation.Failure
import Relocation.Url.Address

/-!
# References

A reference is resolved against a base: it is split into scheme, authority, path, parameters, query
and fragment, the missing front parts are taken from the base, dot segments are removed, and the
parts are put together again.  Only schemes that are known to be hierarchical resolve; with any
other the reference is left as it is.
-/

namespace Relocation.Url

structure Parts where
  scheme : Text
  authority : Text
  path : Text
  params : Text
  query : Text
  fragment : Text

/-- schemes with which relative references resolve -/
def relativeSchemes : List Text :=
  ["", "ftp", "http", "gopher", "nntp", "imap", "wais", "file", "https", "shttp", "mms", "prospero",
    "rtsp", "rtspu", "sftp", "svn", "svn+ssh", "ws", "wss"].map Text.ofString

/-- schemes that are written with an authority, be it empty -/
def authoritySchemes : List Text :=
  ["ftp", "http", "gopher", "nntp", "telnet", "imap", "wais", "file", "mms", "https", "shttp",
    "snews", "prospero", "rtsp", "rtspu", "rsync", "svn", "svn+ssh", "sftp", "nfs", "git",
    "git+ssh", "ws", "wss"].map Text.ofString

/-- schemes whose last path segment may carry parameters -/
def paramSchemes : List Text :=
  ["", "ftp", "hdl", "prospero", "http", "imap", "https", "shttp", "rtsp", "rtspu", "sip", "sips",
    "mms", "sftp", "tel"].map Text.ofString

def isAsciiLetter (c : CodePoint) : Bool :=
  (0x41 ≤ c.value && c.value ≤ 0x5A) || (0x61 ≤ c.value && c.value ≤ 0x7A)

def isSchemePart (c : CodePoint) : Bool :=
  isAsciiLetter c || (0x30 ≤ c.value && c.value ≤ 0x39) || c = .char '+' || c = .char '-' ||
    c = .char '.'

def lowerAscii (c : CodePoint) : CodePoint :=
  match c with
  | .char c => .char c.toLower
  | c => c

/-- a reference without leading controls and blanks, and without tabs and line ends anywhere -/
def cleaned (t : Text) : Text :=
  (t.dropWhile (·.value ≤ 0x20)).filter fun c => c != .char '\t' && c != .char '\r' &&
    c != .char '\n'

/-- the scheme in front, in lower case, and the rest; without one the given scheme -/
def splitScheme (otherwise : Text) (t : Text) : Text × Text :=
  match Text.cut (.char ':') t with
  | (c :: s, some rest) =>
    if isAsciiLetter c && s.all isSchemePart then ((c :: s).map lowerAscii, rest)
    else (otherwise, t)
  | _ => (otherwise, t)

/-- the authority behind a double slash, and the rest -/
def splitAuthority : Text → Text × Text
  | .char '/' :: .char '/' :: r =>
    r.span fun c => c != .char '/' && c != .char '?' && c != .char '#'
  | t => ([], t)

/-- characters whose compatibility form holds one of `/ ? # @ :` -/
def unstableRanges : List (Nat × Nat) :=
  [(0x2047, 0x2049), (0x2100, 0x2101), (0x2105, 0x2106), (0x2A74, 0x2A74), (0xFE13, 0xFE13),
    (0xFE16, 0xFE16),
   (0xFE55, 0xFE56), (0xFE5F, 0xFE5F), (0xFE6B, 0xFE6B), (0xFF03, 0xFF03), (0xFF0F, 0xFF0F),
   (0xFF1A, 0xFF1A), (0xFF1F, 0xFF20)]

/-- the part of an authority behind the user: host and port -/
def hostAndPort (authority : Text) : Text := (Text.splitOn (.char '@') authority).getLast?.getD []

/-- the host of an authority with brackets in it; around brackets nothing may stand but a port
behind them -/
def host (authority : Text) : Except ValueFault Text :=
  match Text.cut (.char '[') (hostAndPort authority) with
  | (before, some bracketed) =>
    match Text.cut (.char ']') bracketed with
    | (host, after) =>
      match before, after.getD [] with
      | [], [] | [], .char ':' :: _ => .ok host
      | _, _ => .error .strayBracket
  | (plain, none) => .ok (Text.cut (.char ':') plain).1

/-- refuses a host that is no address of version 6 or above -/
def checkHost (host : Text) : Except ValueFault Unit :=
  match host with
  | .char 'v' :: r => if Address.isFuture r then .ok () else .error .futureAddress
  | host =>
    if Address.isVersion4 host then .error .bracketedVersion4
    else if Address.isVersion6 host then .ok ()
    else .error (.unknownAddress host)

/-- refuses an authority with a bracket that has no partner of the other kind, with brackets but no
address for its host, or with a character that normalization would turn into a delimiter -/
def checkAuthority (authority : Text) : Except ValueFault Unit := do
  if authority.contains (.char '[') != authority.contains (.char ']') then throw .strayBracket
  if authority.contains (.char '[') then checkHost (← host authority)
  if authority.any (·.inRanges unstableRanges) then throw (.unstableHost authority)

/-- the path without the parameters of its last segment, and these -/
def splitParams (path : Text) : Text × Text :=
  let segments := Text.splitOn (.char '/') path
  match Text.cut (.char ';') (segments.getLast?.getD []) with
  | (_, none) => (path, [])
  | (last, some params) => (Text.join [.char '/'] (segments.dropLast ++ [last]), params)

/-- the parts of a reference; one without a scheme takes the given scheme -/
def split (otherwise : Text) (t : Text) : Except ValueFault Parts := do
  let (scheme, t) := splitScheme otherwise (cleaned t)
  let (authority, t) := splitAuthority t
  checkAuthority authority
  let (t, fragment) := Text.cut (.char '#') t
  let (path, query) := Text.cut (.char '?') t
  let (path, params) := if paramSchemes.contains scheme then splitParams path else (path, [])
  return ⟨scheme, authority, path, params, query.getD [], fragment.getD []⟩

/-- a part with the mark before it, nothing for an empty part -/
def marked (mark : Char) (t : Text) : Text := if t = [] then [] else .char mark :: t

/-- the parts put together.  Empty parts leave no trace, but for the authority of a scheme that is
written with one. -/
def Parts.text (p : Parts) : Text :=
  let path := p.path ++ marked ';' p.params
  let hierarchical := p.authority ≠ [] ∨
    p.scheme ≠ [] ∧ authoritySchemes.contains p.scheme ∧ ¬ (Text.ofString "//").isPrefixOf path
  let rooted := if path = [] ∨ path.head? = some (.char '/') then path else .char '/' :: path
  let located := if hierarchical then Text.ofString "//" ++ p.authority ++ rooted else path
  (if p.scheme = [] then located else p.scheme ++ .char ':' :: located) ++ marked '?' p.query ++
    marked '#' p.fragment

/-- the segments between the first and the last without the empty ones -/
def keepEnds : List Text → List Text
  | [] => []
  | [s] => [s]
  | s :: t :: r => s :: ((t :: r).dropLast.filter (· != []) ++ [(t :: r).getLast (by simp)])

/-- removes dot segments; a double dot takes the segment before it along, if one is left.  `done` is
reversed. -/
def removeDots (done : List Text) : List Text → List Text
  | [] => done.reverse
  | s :: r =>
    if s = Text.ofString ".." then removeDots done.tail r
    else if s = Text.ofString "." then removeDots done r
    else removeDots (s :: done) r

/-- a path resolved against the path of the base -/
def resolvePath (base path : Text) : Text :=
  let own := Text.splitOn (.char '/') path
  let above := Text.splitOn (.char '/') base
  let above := if above.getLast? = some [] then above else above.dropLast
  let segments := if path.head? = some (.char '/') then own else keepEnds (above ++ own)
  let last := segments.getLast?.getD []
  let resolved := removeDots [] segments ++
    (if last = Text.ofString "." ∨ last = Text.ofString ".." then [[]] else [])
  let text := Text.join [.char '/'] resolved
  if text = [] then [.char '/'] else text

/-- a reference resolved against a base -/
def resolve (base reference : Text) : Except ValueFault Text :=
  if base = [] then .ok reference
  else if reference = [] then .ok base
  else do
    let b ← split [] base
    let r ← split b.scheme reference
    if r.scheme ≠ b.scheme ∨ ¬ relativeSchemes.contains r.scheme then return reference
    else if r.authority ≠ [] then return r.text
    else if r.path = [] ∧ r.params = [] then
      return { b with
        query := if r.query = [] then b.query else r.query, fragment := r.fragment : Parts }.text
    else return { r with authority := b.authority, path := resolvePath b.path r.path : Parts }.text

end Relocation.Url
