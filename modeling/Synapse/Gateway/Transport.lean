import Synapse.Wire.Schemas

/-!
# Transport rules

Whether a request came over encrypted transport (`server/src/socket/transport.ts`). A proxy in front
of the server says so in a header.
-/

namespace Synapse.Gateway

/-- What the rules read of a request. -/
structure IncomingMessage where
  /-- The socket is a TLS socket. -/
  encrypted : Bool
  /-- The values of the `X-Forwarded-Proto` header. -/
  forwardedProto : List String
  deriving DecidableEq

/-- The first value of a header, trimmed, unless it is absent or empty. -/
def headerValue (values : List String) : Option String :=
  (values.head?.map fun value ↦ String.ofList (Schemas.trim value.toList)).filter (· ≠ "")

/-- The first hop of a proxy chain. -/
def firstHop (proto : String) : String :=
  String.ofList ((Schemas.trim (proto.toList.takeWhile (· ≠ ','))).map Char.toLower)

/-- Whether the request arrived over encrypted transport. -/
def isSecureRequest (req : IncomingMessage) : Bool :=
  req.encrypted ||
    match headerValue req.forwardedProto with
    | none => false
    | some forwardedProto => firstHop forwardedProto == "https" || firstHop forwardedProto == "wss"

end Synapse.Gateway
