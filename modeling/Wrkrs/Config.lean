import Wrkrs.Format
import Wrkrs.Url

/-!
# Benchmark files

A benchmark file with its checks, the headers it layers over those of the command line,
and the engine made from it: one request for the whole run, and limits per thread.
-/

namespace Wrkrs

set_option autoImplicit false

open Text Machine

structure RequestSpec where
  method : Option Str
  path : Option Str
  body : Option Str
  headers : Headers
  deriving DecidableEq, Repr

structure StopSpec where
  requests : Option UInt64
  bytes : Option UInt64
  deriving DecidableEq, Repr

structure BenchFile where
  request : RequestSpec
  stop : StopSpec
  deriving DecidableEq, Repr

namespace StopSpec

def reached (stop : StopSpec) (completed received : UInt64) : Bool :=
  stop.requests.any (· ≤ completed) || stop.bytes.any (· ≤ received)

def isSet (stop : StopSpec) : Bool := stop.requests.isSome || stop.bytes.isSome

end StopSpec

def quoted (before value after : Str) : Str := before ++ '\'' :: (value ++ '\'' :: after)

def breaksWord (byte : UInt8) : Bool := byte ≤ 0x20 || byte == 0x7F

def checkMethod (method : Str) : Except Str Unit :=
  if method.isEmpty || (encode method).any breaksWord then
    .error (quoted "invalid method ".toList method [])
  else .ok ()

def checkPath (path : Str) : Except Str Unit :=
  if path ≠ ['*'] ∧ path.head? ≠ some '/' then
    .error (quoted "invalid path ".toList path ", the path must start with a slash".toList)
  else if (encode path).any breaksWord then .error (quoted "invalid path ".toList path [])
  else .ok ()

def checkHeader (entry : Str × Str) : Except Str Unit :=
  if entry.1.isEmpty || (encode entry.1).any (fun b => breaksWord b || b == byte ':') then
    .error (quoted "invalid header name ".toList entry.1 [])
  else if (encode entry.2).any (fun b => b < 0x20 || b == 0x7F) || entry.2.head? == some ' ' ||
      entry.2.getLast? == some ' ' then
    .error (quoted "invalid header value for ".toList entry.1 [])
  else .ok ()

def checkLimit (field : Str) (limit : Option UInt64) : Except Str Unit :=
  if limit == some 0 then .error ("stop.".toList ++ field ++ " must be at least one".toList)
  else .ok ()

def checkPresent {α : Type} (check : α → Except Str Unit) : Option α → Except Str Unit
  | some value => check value
  | none => .ok ()

def BenchFile.validate (file : BenchFile) : Except Str Unit := do
  checkPresent checkMethod file.request.method
  checkPresent checkPath file.request.path
  file.request.headers.forM checkHeader
  checkLimit "requests".toList file.stop.requests
  checkLimit "bytes".toList file.stop.bytes

def setHeader (headers : Headers) (entry : Str × Str) : Headers :=
  match headers.findIdx? (fun existing => existing.1 == entry.1) with
  | some index => headers.modify index fun existing => (existing.1, entry.2)
  | none => headers ++ [entry]

/-- Layers file headers over the headers of the command line. -/
def overlay (base layer : Headers) : Headers := layer.foldl setHeader base

/-- What a script environment is built from. -/
structure ScriptSpec where
  parts : UrlRef
  headers : Headers
  deriving DecidableEq, Repr

structure ConfigEngine where
  request : Bytes
  file : BenchFile
  completed : UInt64
  received : UInt64
  /-- Whether init has delivered the thread. -/
  thread : Bool
  deriving DecidableEq, Repr

namespace ConfigEngine

def formatted (spec : ScriptSpec) (file : BenchFile) : Except Fault Bytes :=
  formatRequest (file.request.method.getD "GET".toList) (file.request.path.getD spec.parts.path)
    (overlay spec.headers file.request.headers) (file.request.body.map encode)
    (some (hostHeader (spec.parts.host.getD []) spec.parts.port))

def create (spec : ScriptSpec) (name : Str) (file : BenchFile) :
    Except Fault (Except Str ConfigEngine) :=
  match file.validate with
  | .error message => .ok (.error (name ++ ": ".toList ++ message))
  | .ok () => do
    let request ← formatted spec file
    return .ok ⟨request, file, 0, 0, false⟩

end ConfigEngine

end Wrkrs
