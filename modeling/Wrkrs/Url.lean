import Wrkrs.Library.Machine
import Wrkrs.Library.Scanning
import Wrkrs.Library.Text

/-!
# The URL parser

Two automata over the bytes of a URL: the first marks the scheme, the authority and the
path, the second reads the authority again and narrows it to host and port. The marked
ranges are then cut out of the text, which faults off a character boundary.
-/

namespace Wrkrs

set_option autoImplicit false

open Text Machine Scanning

/-- The parts of a URL a script sees; the host without its brackets. -/
structure UrlRef where
  scheme : Option Str
  host : Option Str
  port : Option Str
  path : Str
  deriving DecidableEq, Repr

structure Span where
  start : Nat
  stop : Nat
  deriving DecidableEq, Repr

structure Fields where
  schema : Option Span
  host : Option Span
  port : Option Span
  path : Option Span
  deriving DecidableEq, Repr

inductive UrlState where
  | dead
  | spacesBeforeUrl
  | schema
  | schemaSlash
  | schemaSlashSlash
  | serverWithAt
  | serverStart
  | server
  | path
  | queryStart
  | query
  | fragmentStart
  | fragment
  deriving DecidableEq, Repr

inductive HostState where
  | dead
  | userInfoStart
  | userInfo
  | hostStart
  | host
  | v6Start
  | v6
  | v6End
  | v6ZoneStart
  | v6Zone
  | portStart
  | port
  deriving DecidableEq, Repr

def isAlphabetic (ch : UInt8) : Bool :=
  (byte 'A' ≤ ch && ch ≤ byte 'Z') || (byte 'a' ≤ ch && ch ≤ byte 'z')

def isDigit (ch : UInt8) : Bool := byte '0' ≤ ch && ch ≤ byte '9'

def isAlphanumeric (ch : UInt8) : Bool := isAlphabetic ch || isDigit ch

def isHexdigit (ch : UInt8) : Bool :=
  isDigit ch || (byte 'A' ≤ ch && ch ≤ byte 'F') || (byte 'a' ≤ ch && ch ≤ byte 'f')

def isUserinfoChar (ch : UInt8) : Bool :=
  isAlphanumeric ch || (ascii "-_.!~*'()%;:&=+$,").contains ch

def isHostChar (ch : UInt8) : Bool := isAlphanumeric ch || ch == byte '.' || ch == byte '-'

def isZoneChar (ch : UInt8) : Bool := isAlphanumeric ch || (ascii "%.-_~").contains ch

def isUrlChar (ch : UInt8) : Bool :=
  ch == 0x09 || ch == 0x0C || ch == byte '!' || ch == byte '"' || (0x24 ≤ ch && ch ≤ 0x3E) ||
    (byte 'A' ≤ ch && ch ≤ byte 'Z') || ch == byte '^' || ch == byte '_' || ch == 0x60 ||
    (byte 'a' ≤ ch && ch ≤ byte 'z') || ch == byte '|' || ch == byte '~'

/-- The bytes every state rejects: space, CR, LF, tab and form feed. -/
def isSpaceByte (ch : UInt8) : Bool :=
  ch == byte ' ' || ch == 0x0D || ch == 0x0A || ch == 0x09 || ch == 0x0C

def serverStep (ch : UInt8) : UrlState :=
  if ch = byte '/' then .path
  else if ch = byte '?' then .queryStart
  else if ch = byte '@' then .serverWithAt
  else if isUserinfoChar ch || ch == byte '[' || ch == byte ']' then .server
  else .dead

def urlStep (state : UrlState) (ch : UInt8) : UrlState :=
  if isSpaceByte ch then .dead
  else
    match state with
    | .spacesBeforeUrl =>
      if ch = byte '/' ∨ ch = byte '*' then .path
      else if isAlphabetic ch then .schema
      else .dead
    | .schema =>
      if isAlphabetic ch then .schema
      else if ch = byte ':' then .schemaSlash
      else .dead
    | .schemaSlash => if ch = byte '/' then .schemaSlashSlash else .dead
    | .schemaSlashSlash => if ch = byte '/' then .serverStart else .dead
    | .serverWithAt => if ch = byte '@' then .dead else serverStep ch
    | .serverStart => serverStep ch
    | .server => serverStep ch
    | .path =>
      if isUrlChar ch then .path
      else if ch = byte '?' then .queryStart
      else if ch = byte '#' then .fragmentStart
      else .dead
    | .queryStart | .query =>
      if isUrlChar ch || ch == byte '?' then .query
      else if ch = byte '#' then .fragmentStart
      else .dead
    | .fragmentStart =>
      if isUrlChar ch || ch == byte '?' then .fragment
      else if ch = byte '#' then .fragmentStart
      else .dead
    | .fragment =>
      if isUrlChar ch || ch == byte '?' || ch == byte '#' then .fragment else .dead
    | .dead => .dead

def Span.extend (index : Nat) : Option Span → Option Span
  | some existing => some { existing with stop := index + 1 }
  | none => some ⟨index, index + 1⟩

structure Scan where
  state : UrlState
  authority : Option Span
  schema : Option Span
  path : Option Span
  foundAt : Bool
  deriving DecidableEq, Repr

namespace Scan

def start : Scan := ⟨.spacesBeforeUrl, none, none, none, false⟩

def mark (s : Scan) (index : Nat) (state : UrlState) : Option Scan :=
  match state with
  | .dead => none
  | .serverWithAt =>
    some { s with state := state, foundAt := true, authority := Span.extend index s.authority }
  | .server => some { s with state := state, authority := Span.extend index s.authority }
  | .schema => some { s with state := state, schema := Span.extend index s.schema }
  | .path => some { s with state := state, path := Span.extend index s.path }
  | _ => some { s with state := state }

def step (index : Nat) (s : Scan) (ch : UInt8) : Option Scan := s.mark index (urlStep s.state ch)

end Scan

def hostStep (state : HostState) (ch : UInt8) : HostState :=
  match state with
  | .userInfo | .userInfoStart =>
    if ch = byte '@' then .hostStart else if isUserinfoChar ch then .userInfo else .dead
  | .hostStart => if ch = byte '[' then .v6Start else if isHostChar ch then .host else .dead
  | .host => if isHostChar ch then .host else if ch = byte ':' then .portStart else .dead
  | .v6End => if ch = byte ':' then .portStart else .dead
  | .v6 =>
    if ch = byte ']' then .v6End
    else if isHexdigit ch || ch == byte ':' || ch == byte '.' then .v6
    else if ch = byte '%' then .v6ZoneStart
    else .dead
  | .v6Start => if isHexdigit ch || ch == byte ':' || ch == byte '.' then .v6 else .dead
  | .v6Zone => if ch = byte ']' then .v6End else if isZoneChar ch then .v6Zone else .dead
  | .v6ZoneStart => if isZoneChar ch then .v6Zone else .dead
  | .port | .portStart => if isDigit ch then .port else .dead
  | .dead => .dead

structure Split where
  state : HostState
  host : Span
  port : Option Span
  deriving DecidableEq, Repr

namespace Split

def mark (s : Split) (index : Nat) (next : HostState) : Option Split :=
  match next with
  | .dead => none
  | .host =>
    some { s with
      state := next
      host := ⟨if s.state ≠ .host then index else s.host.start, index + 1⟩ }
  | .v6 =>
    some { s with
      state := next
      host := ⟨if s.state ≠ .v6 then index else s.host.start, index + 1⟩ }
  | .v6ZoneStart | .v6Zone =>
    some { s with state := next, host := { s.host with stop := index + 1 } }
  | .port => some { s with state := next, port := Span.extend index s.port }
  | _ => some { s with state := next }

def step (index : Nat) (s : Split) (ch : UInt8) : Option Split :=
  s.mark index (hostStep s.state ch)

def start (base : Nat) (foundAt : Bool) : Split :=
  ⟨if foundAt then .userInfoStart else .hostStart, ⟨base, base⟩, none⟩

/-- The host and the port, when the authority may end in the state reached. -/
def finish (s : Split) : Option (Span × Option Span) :=
  match s.state with
  | .hostStart | .v6Start | .v6 | .v6ZoneStart | .v6Zone | .portStart | .userInfo
  | .userInfoStart => none
  | _ => some (s.host, s.port)

end Split

/-- The authority lies within the bytes, its indexes need no check. -/
def splitHost (bytes : Bytes) (authority : Span) (foundAt : Bool) : Option (Span × Option Span) :=
  (scan Split.step authority.start (.start authority.start foundAt)
    ((bytes.drop authority.start).take (authority.stop - authority.start))).bind Split.finish

def cut (url : Str) (start stop : Nat) : Except Fault Str :=
  match substr url start stop with
  | some piece => .ok piece
  | none => .error .slice

def portFits (url : Str) : Option Span → Except Fault Bool
  | none => .ok true
  | some range => do
    let digits ← cut url range.start range.stop
    return (fromStrRadix 10 word digits).any (· ≤ 0xFFFF)

def parseFields (url : Str) : Except Fault (Option Fields) :=
  match scan Scan.step 0 .start (encode url) with
  | none => .ok none
  | some s =>
    match s.authority, s.schema with
    | some authority, some schema =>
      match splitHost (encode url) authority s.foundAt with
      | none => .ok none
      | some (host, port) => do
        if ← portFits url port then return some ⟨some schema, some host, port, s.path⟩
        else return none
    | _, _ => .ok none

def cutOption (url : Str) : Option Span → Except Fault (Option Str)
  | none => .ok none
  | some range => do return some (← cut url range.start range.stop)

/-- Everything from the path on, query and fragment included. -/
def cutPath (url : Str) : Option Span → Except Fault Str
  | none => .ok ['/']
  | some range => cut url range.start (encode url).length

def parseUrl (url : Str) : Except Fault (Option UrlRef) := do
  match ← parseFields url with
  | none => return none
  | some fields =>
    match fields.schema, fields.host with
    | some schema, some host => do
      let port ← cutOption url fields.port
      let path ← cutPath url fields.path
      let scheme ← cut url schema.start schema.stop
      let host ← cut url host.start host.stop
      return some ⟨some scheme, some host, port, path⟩
    | _, _ => return none

end Wrkrs
