import Wrkrs.Library.Machine
import Wrkrs.Library.Text

/-!
# Formatting requests

The Host value, the rules for Host and Content-Length, and the bytes of a request.
-/

namespace Wrkrs

set_option autoImplicit false

open Text Machine

abbrev Headers := List (Str × Str)

/-- A host with a colon is put into brackets. -/
def hostHeader (host : Str) (port : Option Str) : Str :=
  let host := if host.contains ':' then '[' :: (host ++ [']']) else host
  match port with
  | some port => host ++ ':' :: port
  | none => host

def contentLengthName : Str := "Content-Length".toList

def hostName : Str := "Host".toList

/-- A body replaces the first entry or adds one, no body removes all of them. -/
def applyContentLength (headers : Headers) (length : Option Nat) : Headers :=
  match headers.findIdx? (fun entry => entry.1 == contentLengthName), length with
  | some index, some length => headers.modify index fun entry => (entry.1, decimal length)
  | some _, none => headers.filter fun entry => entry.1 != contentLengthName
  | none, some length => headers ++ [(contentLengthName, decimal length)]
  | none, none => headers

def addHost (headers : Headers) (defaultHost : Option Str) : Headers :=
  match defaultHost with
  | some host =>
    if headers.any fun entry => entry.1 == hostName then headers else headers ++ [(hostName, host)]
  | none => headers

def effectiveHeaders (headers : Headers) (body : Option Bytes) (defaultHost : Option Str) :
    Headers :=
  applyContentLength (addHost headers defaultHost) (body.map List.length)

def requestLine (method path : Str) : Str :=
  method ++ ' ' :: (path ++ " HTTP/1.1".toList)

def headerText (entry : Str × Str) : Str := entry.1 ++ ':' :: ' ' :: entry.2

def requestBytes (method path : Str) (headers : Headers) (body : Option Bytes)
    (defaultHost : Option Str) : Bytes :=
  encode (requestLine method path) ++
    (effectiveHeaders headers body defaultHost).flatMap
      (fun entry => 13 :: 10 :: encode (headerText entry)) ++
    [13, 10, 13, 10] ++ body.getD []

/-- The bytes grow piece by piece and fault as soon as they are too many. -/
def formatRequest (method path : Str) (headers : Headers) (body : Option Bytes)
    (defaultHost : Option Str) : Except Fault Bytes :=
  extend [] (requestBytes method path headers body defaultHost)

end Wrkrs
