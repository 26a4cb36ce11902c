import Mere.Chartulary.Links
import Mere.Kernel.Payload
import Mere.Kernel.Navigation

/-!
# Nodes, their addresses and their facets

From `crates/graph/graph-kernel/src/address.rs`, `types.rs`, `graph/node.rs`,
`graph/node_facets.rs`, the container of `chartulary` and the field types of `numen`. What the
kernel takes from other libraries is a `Platform`. An `f32` is its bits.
-/

namespace Mere.Kernel

/-- Bytes in the order of their numbers. -/
instance byteOrder : LinearOrder UInt8 where
  le_refl a := UInt8.le_refl a
  le_trans _ _ _ h h' := UInt8.le_trans h h'
  lt_iff_le_not_ge a b := by
    rw [UInt8.lt_iff_toNat_lt, UInt8.le_iff_toNat_le, UInt8.le_iff_toNat_le]
    omega
  le_antisymm _ _ h h' := UInt8.le_antisymm h h'
  le_total a b := UInt8.le_total a b
  toDecidableLE := inferInstance
  min a b := if a ≤ b then a else b
  max a b := if a ≤ b then b else a

@[reducible] def bytesOrder : LinearOrder (List UInt8) := List.instLinearOrder

/-- Rust's order of `str`, with the equality test that `Str` has. -/
instance strOrder : LinearOrder Str where
  le := bytesOrder.le
  lt := bytesOrder.lt
  le_refl := bytesOrder.le_refl
  le_trans := bytesOrder.le_trans
  lt_iff_le_not_ge := bytesOrder.lt_iff_le_not_ge
  le_antisymm := bytesOrder.le_antisymm
  le_total := bytesOrder.le_total
  toDecidableLE := bytesOrder.toDecidableLE
  toDecidableEq := inferInstanceAs (DecidableEq (List UInt8))
  toDecidableLT := bytesOrder.toDecidableLT
  compare := bytesOrder.compare
  compare_eq_compareOfLessAndEq a b := by
    rw [bytesOrder.compare_eq_compareOfLessAndEq]
    congr

instance strTransCmp : Std.TransCmp (@compare Str LinearOrder.toOrd) := inferInstance
instance strLawfulEqCmp : Std.LawfulEqCmp (@compare Str LinearOrder.toOrd) :=
  ⟨fun h => compare_eq_iff_eq.mp h⟩

abbrev F32 := UInt32

/-! ## Facet records -/

inductive ClassificationScheme
  | udc | contentKind
  | custom (name : Str)
  deriving DecidableEq

inductive ClassificationProvenance
  | userAuthored | imported | inheritedFromSource | registryDerived | agentSuggested
  | communitySynced
  deriving DecidableEq

inductive ClassificationStatus
  | accepted | suggested | rejected | verified | imported
  deriving DecidableEq

structure NodeClassification where
  scheme : ClassificationScheme
  value : Str
  label : Option Str
  confidence : F32
  provenance : ClassificationProvenance
  status : ClassificationStatus
  primary : Bool
  deriving DecidableEq

structure NodeProperty where
  statementId : Str
  predicate : Str
  value : Str
  datatype : Option Str
  lang : Option Str
  graphScope : GraphScope
  provenanceIri : Option Str
  assertedAtMs : Option Nat
  deriving DecidableEq

def NodeProperty.contentEq (a b : NodeProperty) : Bool :=
  a.predicate == b.predicate && a.value == b.value && a.datatype == b.datatype &&
    a.lang == b.lang && a.graphScope == b.graphScope

structure NodeImportProvenance where
  sourceId : Str
  sourceLabel : Str
  deriving DecidableEq

structure NodeDerivation where
  subKind : ProvenanceSubKind
  sourceNode : Str
  sourceGraph : Option Str
  deriving DecidableEq

inductive BadgeIcon
  | emoji (glyph : Str)
  | lucide (name : Str)
  | none
  deriving DecidableEq

structure NodeTagPresentationState where
  orderedTags : List Str := []
  iconOverrides : OrdMap Str BadgeIcon := ∅

structure VisitHistoryFacet where
  lastVisitedMs : Option Nat := none
  lastSessionVisited : Nat := 0
  deriving DecidableEq

/-! ## What other libraries do -/

/-- `serde` for one type. -/
structure Codec (J T : Type) where
  encode : T → J
  decode : J → Option T

/-- What is read off a parsed URL: its host, the number of its nonempty path segments, the URL
    one segment up (`containment_parent_url`), and whether its path ends in a slash. -/
structure ParsedUrl where
  host : Option Str
  depth : Nat
  parentUrl : Option Str
  endsInSlash : Bool
  deriving DecidableEq

structure Platform where
  uuidText : Uuid → Str
  parseUuid : Str → Option Uuid
  parseUuid_text : ∀ id, parseUuid (uuidText id) = some id
  parseUrl : Str → Option ParsedUrl
  detectMime : Str → Option Str
  isBlank : Str → Bool
  hashHex : Bytes32 → Str
  hashFromHex : Str → Option Bytes32
  hashFromHex_hex : ∀ hash, hashFromHex (hashHex hash) = some hash
  Json : Type
  [jsonEq : DecidableEq Json]
  jsonText : Json → Str
  parseJson : Str → Option Json
  FrameLayoutHint : Type
  flag : Codec Json Bool
  frameLayout : Codec Json (List FrameLayoutHint)
  tagPresentation : Codec Json NodeTagPresentationState
  visitHistory : Codec Json VisitHistoryFacet
  visitHistory_read : ∀ facet, visitHistory.decode (visitHistory.encode facet) = some facet
  importProvenance : Codec Json (List NodeImportProvenance)
  derivations : Codec Json (List NodeDerivation)
  classifications : Codec Json (List NodeClassification)
  properties : Codec Json (List NodeProperty)
  FieldDefinition : Type
  definitionText : FieldDefinition → Str
  parseDefinition : Str → Option FieldDefinition

instance jsonDecidableEq (P : Platform) : DecidableEq P.Json := P.jsonEq

/-! ## Addresses -/

inductive AddressKind
  | http | file | data | graphshellClip | directory | unknown
  deriving DecidableEq

inductive Address
  | http (url : Str)
  | file (url : Str)
  | data (url : Str)
  | clip (url : Str)
  | directory (url : Str)
  | custom (url : Str)
  deriving DecidableEq

namespace Address

def asUrlStr : Address → Str
  | http url | file url | data url | clip url | directory url | custom url => url

def addressKind : Address → AddressKind
  | http _ => .http
  | file _ => .file
  | data _ => .data
  | clip _ => .graphshellClip
  | directory _ => .directory
  | custom _ => .unknown

end Address

def asciiLower (b : UInt8) : UInt8 := if 65 ≤ b ∧ b ≤ 90 then b + 32 else b

def toAsciiLowercase (s : Str) : Str := s.map asciiLower

def startsWith (s : Str) (start : String) : Bool := (text start).isPrefixOf s

section
variable (P : Platform)

def addressFromUrl (url : Str) : Address :=
  let lower := toAsciiLowercase url
  if startsWith lower "http://" || startsWith lower "https://" then .http url
  else if startsWith lower "data:" then .data url
  else if startsWith lower "verso://clip/" || startsWith lower "graphshell://clip/" then .clip url
  else if startsWith lower "file://" then
    if (P.parseUrl url).any ParsedUrl.endsInSlash then .directory url else .file url
  else .custom url

def cachedHostFromUrl (url : Str) : Option Str := (P.parseUrl url).bind ParsedUrl.host

@[simp] theorem asUrlStr_addressFromUrl (url : Str) : (addressFromUrl P url).asUrlStr = url := by
  unfold addressFromUrl
  dsimp only
  split_ifs <;> rfl

end

/-! ## Nodes -/

inductive ImageRole
  | favicon | preview | snapshot
  deriving DecidableEq

instance imageRoleFintype : Fintype ImageRole :=
  ⟨{.favicon, .preview, .snapshot}, fun role => by cases role <;> decide⟩

structure ImageRef where
  digest : Bytes32
  width : UInt32
  height : UInt32
  deriving DecidableEq

/-- A container with its images. The addresses are never empty: the first is the primary one. -/
structure Node where
  id : Uuid
  primaryAddress : Address
  aliases : List Address := []
  content : Option Bytes32 := none
  body : Option Str := none
  mediaType : Option Str := none
  title : Str
  tags : Finset Str := ∅
  nested : Option Str := none
  images : ImageRole → Option ImageRef := fun _ => none
  deriving DecidableEq

instance nodeIdentified : Chartulary.Identified Node Uuid := ⟨Node.id⟩

namespace Node

def url (node : Node) : Str := node.primaryAddress.asUrlStr

def addresses (node : Node) : List Address := node.primaryAddress :: node.aliases

def setImage (node : Node) (role : ImageRole) (image : Option ImageRef) : Node :=
  { node with images := Function.update node.images role image }

end Node

/-! ## Fields and couplings -/

inductive FieldExtent
  | global
  | region (minX minY maxX maxY : F32)
  | attachedToNode (node : Uuid)
  | polygon (points : List (F32 × F32))
  deriving DecidableEq

inductive FieldLifecycle
  | active | retired
  deriving DecidableEq

structure Field (P : Platform) where
  id : Uuid
  name : Option Str
  definition : P.FieldDefinition
  extent : FieldExtent
  lifecycle : FieldLifecycle

inductive NodeSelector
  | all
  | tagged (tag : Str)
  | kind (kind : Str)
  | notTagged (tag : Str)
  deriving DecidableEq

inductive CouplingResponse
  | attractToMin | repelFromMax | alignVelocity | flowAdvect
  | dampenInside (factor : F32)
  | containmentWall
  | openTail (predicate : Str)
  deriving DecidableEq

structure Coupling where
  id : Uuid
  field : Uuid
  selector : NodeSelector
  response : CouplingResponse
  strength : F32
  deriving DecidableEq

/-! ## A platform to evaluate with -/

inductive PlainJson
  | null
  | text (text : Str)
  | visits (history : VisitHistoryFacet)
  | provenance (sources : List NodeImportProvenance)
  deriving DecidableEq

def PlainJson.visits? : PlainJson → Option VisitHistoryFacet
  | visits history => some history
  | _ => none

def PlainJson.provenance? : PlainJson → Option (List NodeImportProvenance)
  | provenance sources => some sources
  | _ => none

def unary {n : Nat} (k : Fin n) : Str := List.replicate k.val 0

def fromUnary {n : Nat} (s : Str) : Option (Fin n) :=
  if h : s.length < n then some ⟨s.length, h⟩ else none

theorem fromUnary_unary {n : Nat} (k : Fin n) : fromUnary (unary k) = some k := by
  unfold fromUnary unary
  simp [List.length_replicate, k.isLt]

/-- Facets of the two kinds that the kernel itself reads, and of plain text. -/
def plainPlatform : Platform where
  uuidText := unary
  parseUuid := fromUnary
  parseUuid_text := fromUnary_unary
  parseUrl _ := none
  detectMime _ := none
  isBlank s := s.isEmpty
  hashHex := unary
  hashFromHex := fromUnary
  hashFromHex_hex := fromUnary_unary
  Json := PlainJson
  jsonText
    | .text s => s
    | _ => []
  parseJson s := some (.text s)
  FrameLayoutHint := Unit
  flag := ⟨fun _ => .null, fun _ => none⟩
  frameLayout := ⟨fun _ => .null, fun _ => none⟩
  tagPresentation := ⟨fun _ => .null, fun _ => none⟩
  visitHistory := ⟨.visits, PlainJson.visits?⟩
  visitHistory_read _ := rfl
  importProvenance := ⟨.provenance, PlainJson.provenance?⟩
  derivations := ⟨fun _ => .null, fun _ => none⟩
  classifications := ⟨fun _ => .null, fun _ => none⟩
  properties := ⟨fun _ => .null, fun _ => none⟩
  FieldDefinition := Str
  definitionText definition := definition
  parseDefinition text := some text

end Mere.Kernel
