import ChunkedArray.Codec.Chain
import ChunkedArray.Config.Basic
import ChunkedArray.Json.Parser

/-!
# ChunkedArray.Codec.Metadata

Codec chains described in JSON: a list of codecs, each by its name alone or by
its name and a configuration, as an object or as a list of the two.

Exactly one codec of a chain turns elements into bytes. It may stand anywhere
among the others, whose order is kept. A codec has no settings but its own, and
those without a default have to be given.
-/

namespace ChunkedArray

/-- The description of one codec. -/
structure CodecMetadata where
  name : String
  configuration : List (String × Json)
  deriving Repr

namespace CodecMetadata

/-- The settings that a value holds; none where it is null. -/
def settings? : Json → Option (List (String × Json))
  | .object members => some members
  | .null => some []
  | _ => none

/-- The description whose parts are given. -/
def ofParts? (name : Json) (configuration : Json) : Option CodecMetadata :=
  match name with
  | .string name => (settings? configuration).map fun settings => ⟨name, settings⟩
  | _ => none

/-- The description that an object holds. No other name than the two may occur in
it, and none of them twice. -/
def ofMembers? (members : List (String × Json)) : Option CodecMetadata := do
  let names := members.map Prod.fst
  if names.any fun name => name ≠ "name" ∧ name ≠ "configuration" then none
  if 1 < names.count "name" ∨ 1 < names.count "configuration" then none
  let name ← members.lookup "name"
  ofParts? name ((members.lookup "configuration").getD .null)

/-- The description that a value holds. -/
def ofJson? : Json → Option CodecMetadata
  | .string name => some ⟨name, []⟩
  | .object members => ofMembers? members
  | .array [name] => ofParts? name .null
  | .array [name, configuration] => ofParts? name configuration
  | _ => none

end CodecMetadata

/-- A codec of a chain. -/
inductive ChainLink
  | element (codec : ElementCodec)
  | stage (stage : Stage)
  deriving DecidableEq, Repr

namespace ChainLink

/-- Does a configuration have no other setting than one? -/
def onlySetting (name : String) (settings : List (String × Json)) : Bool :=
  settings.all fun setting => setting.1 == name

/-- The byte order of a word. -/
def orderOfWord? : String → Option ByteOrder
  | "little" => some .little
  | "big" => some .big
  | _ => none

/-- The byte order that a setting names, either by a word or by an object with the
word as its only name and null under it; null names none. -/
def byteOrder? : Json → Option (Option ByteOrder)
  | .null => some none
  | .string word => (orderOfWord? word).map some
  | .object members =>
    match Json.onlyMember? members with
    | some (word, .null) => (orderOfWord? word).map some
    | _ => none
  | _ => none

/-- The codec for elements as they are. -/
def bytes? (settings : List (String × Json)) : Option ChainLink :=
  if onlySetting "endian" settings then
    (byteOrder? ((Json.member? settings "endian").getD .null)).map fun order =>
      element (.bytes order)
  else none

/-- The compressing stage. -/
def gzip? (settings : List (String × Json)) : Option ChainLink :=
  if onlySetting "level" settings then
    match Json.member? settings "level" with
    | some (.integer level) => if 0 ≤ level ∧ level ≤ 9 then some (stage .gzip) else none
    | _ => none
  else none

/-- A codec without settings. -/
def plain? (link : ChainLink) (settings : List (String × Json)) : Option ChainLink :=
  if settings.isEmpty then some link else none

/-- The codec of a description. -/
def ofMetadata (metadata : CodecMetadata) : Except MetadataFault ChainLink :=
  let built (link : Option ChainLink) : Except MetadataFault ChainLink :=
    link.elim (.error (.badConfiguration metadata.name)) .ok
  match metadata.name with
  | "bytes" => built (bytes? metadata.configuration)
  | "vlen-utf8" => built (plain? (element .items) metadata.configuration)
  | "crc32c" => built (plain? (stage .crc32c) metadata.configuration)
  | "gzip" => built (gzip? metadata.configuration)
  | name => .error (.unknownCodec name)

/-- The codec for elements, if the link is one. -/
def element? : ChainLink → Option ElementCodec
  | element codec => some codec
  | stage _ => none

/-- The stage, if the link is one. -/
def stage? : ChainLink → Option Stage
  | element _ => none
  | stage codec => some codec

end ChainLink

namespace CodecChain

/-- The descriptions that a text holds. -/
def describe (text : String) : Except MetadataFault (List CodecMetadata) :=
  match Json.parse text.toList with
  | none => .error .malformed
  | some (.array items) => (items.mapM CodecMetadata.ofJson?).elim (.error .illFormed) .ok
  | some _ => .error .illFormed

/-- The chain of some codecs. -/
def ofLinks (links : List ChainLink) (validates : Bool) : Except MetadataFault CodecChain :=
  match links.filterMap ChainLink.element? with
  | [elements] => .ok { elements, stages := links.filterMap ChainLink.stage?, validates }
  | others => .error (.elementCodecs others.length)

/-- The chain that a text describes. Checksums are verified unless the
configuration forbids it. -/
def ofText (text : String) (config : Config) : Outcome CodecChain :=
  let chain := do
    let descriptions ← describe text
    let links ← descriptions.mapM ChainLink.ofMetadata
    ofLinks links (config.validateChecksums.getD true)
  chain.mapError .metadata

end CodecChain

end ChunkedArray
