import ChainIndex.Http.ListQuery
import ChainIndex.Http.Route
import ChainIndex.Service

/-!
This module contains the answers to requests. All of them are JSON values, except that a request which
cannot be understood is refused without one.
-/

namespace ChainIndex

structure Request where
  method : String
  target : String
deriving DecidableEq

structure Response where
  status : Nat
  body : Option Json

namespace Response

def refuse (status : Nat) : Response :=
  ⟨status, none⟩

def ofResult : Except IndexError Json → Response
  | .ok body => ⟨200, some body⟩
  | .error e => ⟨e.status, some e.body⟩

end Response

namespace Request

def isSchemeChar (c : Char) : Bool :=
  c.isAlphanum || c == '+' || c == '-' || c == '.' || c == '~'

def dropAuthority (target : List Char) : List Char :=
  match Split.first ':' target with
  | some (scheme, '/' :: '/' :: rest) =>
    if scheme.all isSchemeChar then rest.dropWhile fun c => c ≠ '/' && c ≠ '?' else target
  | _ => target

def parts (request : Request) : List Char × List Char :=
  let target := dropAuthority (request.target.toList.takeWhile (· ≠ '#'))
  (Split.first '?' target).getD (target, [])

end Request

structure Server where
  service : Service
  limits : PageLimits

namespace Server

def version : String := "0.1.0"

def health (now : Timestamp) : Json :=
  .object [("status", .text "healthy"), ("timestamp", now.toJson), ("version", .text version)]

def listPage (s : Server) (kind : RecordKind) (query : ListQuery) :
    Except IndexError (Page kind.Entry) := do
  let f ← (Filter.ofText query.filter).mapError FilterFault.toError
  (s.service.listing kind).list f query.cursor (query.countWithin s.limits)

def readBlock? (segment : String) : Option UInt64 := do
  let raw ← Utf8.read? (Percent.decode (Utf8.bytes segment))
  (RecordKey.decode raw).toOption

def getBurn (s : Server) (block : UInt64) : Except IndexError Json × Server :=
  let (answer, burns) := (s.service.listing .burn).get block
  let found := answer.bind fun entry =>
    match entry with
    | some entry => .ok (Record.toJson entry)
    | none => .error (.recordNotFound .burn (RecordKey.encode block))
  (found, { s with service := s.service.setListing .burn burns })

def answer (s : Server) (now : Timestamp) (route : Route) (query : List Char) : Response × Server :=
  match route with
  | .health => (.ofResult (.ok (health now)), s)
  | .listing kind =>
    match ListQuery.read? query with
    | none => (.refuse 400, s)
    | some query => (.ofResult ((s.listPage kind query).map Page.body), s)
  | .burn segment =>
    match readBlock? segment with
    | none => (.refuse 400, s)
    | some block =>
      let (found, s) := s.getBurn block
      (.ofResult found, s)

/--
Answers a request. Everything can only be read, and a request for the head of an answer gets no body.
-/
def respond (s : Server) (now : Timestamp) (request : Request) : Response × Server :=
  let (path, query) := request.parts
  match Route.ofPath? path with
  | none => (.refuse 404, s)
  | some route =>
    match request.method with
    | "GET" => s.answer now route query
    | "HEAD" =>
      let (response, s) := s.answer now route query
      (⟨response.status, none⟩, s)
    | _ => (.refuse 405, s)

end Server

end ChainIndex
