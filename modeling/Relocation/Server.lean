import Relocation.Compile
import Relocation.Diagnostic
import Relocation.FileTree.Follow
import Relocation.FileTree.Resolve
import Relocation.Support
import Relocation.Text.Utf8

/-!
# The development server

Files below one directory are served, scripts compiled at each request, so that an edit shows at the
next one.  A request is a path; it is resolved first, and what does not lie below the directory is
refused.
-/

namespace Relocation

structure Server where
  /-- the directory that is served, resolved -/
  root : Path
  options : Options

namespace Server

inductive Request
  /-- the support module -/
  | support
  /-- a path below the directory -/
  | asset (path : Text)

inductive Response
  | support (source : Text)
  /-- the bytes of a file, as they are -/
  | file (asset : Location) (bytes : List UInt8)
  /-- a compiled script -/
  | script (asset : Location) (text : Text)
  /-- a script with an error in it, and the line that reports it -/
  | broken (asset : Location) (report : Text)
  | notFound
  deriving DecidableEq

def title : Text := "modblock dev server"

/-- the file that stands for a directory -/
def indexName : Text := "index.html"

def scriptSuffix : Text := ".js"

/-- what a path resolves to; what remains of a path with a link that leads back to itself may be
reachable still -/
def resolve (t : FileTree) (cwd : Location) (p : Path) : Except Failure Path :=
  if p.hasNull then .error (.value .nullInPath)
  else
    let resolved := t.resolve cwd p
    if resolved.complete then .ok resolved.path
    else match t.follow .find [] resolved.path with
      | .error .tooManyLinks => .error (.linkLoop resolved.path.display)
      | _ => .ok resolved.path

/-- the support module can be served only if it is imported by an absolute path -/
def checkOptions (options : Options) : Except Failure Unit :=
  match options.supportSpecifier with
  | some (.char '/' :: _) => .ok ()
  | some specifier => .error (.value (.relativeSupport specifier))
  | none => .error .valueLeftOut

/-- a server for a directory -/
def create (t : FileTree) (cwd : Location) (directory : Path) (options : Options) :
    Except Failure Server := do
  checkOptions options
  return ⟨← resolve t cwd directory, options⟩

/-- what a place holds, links followed; a name that no directory can hold is not merely missing -/
def held? (t : FileTree) (l : Location) : Except Failure (Option FileTree) :=
  match t.lookup [] (.absolute l) with
  | .ok c => .ok (some c)
  | .error .nameTooLong => .error (.file .nameTooLong)
  | .error _ => .ok none

/-- the place that a path leads to, if it is not outside of what is served; for a directory, the
place of its index -/
def asset? (s : Server) (t : FileTree) (path : Text) : Except Failure (Option Location) := do
  let p ← resolve t [] (s.root.join (Path.ofText path))
  if !s.root.contains p then return none
  else match ← held? t p.parts with
    | some (.directory _) => return some (p.child indexName).parts
    | _ => return some p.parts

/-- the answer to a request for a script; what is wrong with it is said of the path in the
request -/
def compiled (s : Server) (path : Text) (asset : Location) (bytes : List UInt8) :
    Except Failure Response :=
  match Text.ofFile? bytes with
  | none => .error .notDecodable
  | some source =>
    match (Compile.text s.options source).result with
    | .ok text => .ok (.script asset text)
    | .error (.source e) =>
      .ok (.broken asset ((Diagnostic.ofSourceError e (some path)).display none))
    | .error f => .error f

/-- what is served at a place -/
def serve (s : Server) (t : FileTree) (path : Text) (asset : Location) :
    Except Failure Response := do
  match ← held? t asset with
  | some (.file bytes) =>
    if Path.suffix (asset.getLast?.getD []) = scriptSuffix then s.compiled path asset bytes
    else return .file asset bytes
  | _ => return .notFound

/-- the answer to a request -/
def respond (s : Server) (t : FileTree) : Request → Except Failure Response
  | .support => .ok (.support Support.source)
  | .asset path => do
    match ← s.asset? t path with
    | none => return .notFound
    | some asset => s.serve t path asset

end Server

end Relocation
