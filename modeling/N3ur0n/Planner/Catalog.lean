import N3ur0n.Json
import N3ur0n.Lib.Cut

/-!
# The catalogue

The capabilities a planner may dispatch to: those of this instance, and those
of the peers of its directory, called at their endpoint. A tool is named
`<short_peer>::<capability>`, by the first characters of the id of its peer.
-/

namespace N3ur0n

open Cut

structure CapabilityDecl where
  name : String
  schemaIn : Value
  schemaOut : Value
  deriving DecidableEq

/-- A capability of a peer, or of this instance when it has no endpoint. -/
structure ToolDef where
  peerId : String
  peerEndpoint : Option String
  cap : CapabilityDecl
  deriving DecidableEq

structure Catalog where
  tools : List ToolDef

/-- The prefix of the instance ids. -/
def idPrefix : String := "n3:"

/-- The short form of a peer id: its twelve first characters, prefix aside. -/
def shortPeer (peerId : String) : String :=
  let trimmed := if idPrefix.toList.isPrefixOf peerId.toList
    then peerId.toList.drop idPrefix.length else peerId.toList
  String.ofList (trimmed.take 12)

/-- The first tool of that name. -/
def Catalog.find (c : Catalog) (toolName : String) : Option ToolDef :=
  match splitOnce [':', ':'] toolName.toList with
  | none => none
  | some (peer, cap) => c.tools.find? fun t =>
    shortPeer t.peerId = String.ofList peer ∧ t.cap.name = String.ofList cap

end N3ur0n
