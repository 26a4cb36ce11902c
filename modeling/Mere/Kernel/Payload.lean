import Mere.Base.Word

/-!
# What one edge carries

From `crates/graph/graph-kernel/src/graph/edge_taxonomy.rs`, `edge_data.rs` and
`edge_payload.rs`. A statement is told apart inside its bucket by kind, predicate and scope.
-/

namespace Mere.Kernel

def text (s : String) : Str := s.toUTF8.toList

/-! ## Kinds -/

inductive EdgeFamily
  | semantic | traversal | containment | arrangement | imported | provenance
  deriving DecidableEq

inductive SemanticSubKind
  | hyperlink | userGrouped | agentDerived | cites | quotes | summarizes | elaborates | exampleOf
  | supports | contradicts | questions | sameEntityAs | duplicateOf | canonicalMirrorOf | dependsOn
  | blocks | nextStep
  deriving DecidableEq

inductive ArrangementSubKind
  | frameMember | tileGroup | splitPair
  deriving DecidableEq

inductive ContainmentSubKind
  | urlPath | domain | fileSystem | userFolder | clipSource | notebookSection | collectionMember
  deriving DecidableEq

inductive ImportedSubKind
  | bookmarkFolder | historyImport | sessionImport | rssMembership | fileSystemImport
  | archiveMembership | sharedCollection
  deriving DecidableEq

inductive ProvenanceSubKind
  | clippedFrom | excerptedFrom | summarizedFrom | translatedFrom | rewrittenFrom | generatedFrom
  | extractedFrom | importedFromSource | copiedFrom
  deriving DecidableEq

inductive RelationDurability
  | durable | session
  deriving DecidableEq

def ArrangementSubKind.durability : ArrangementSubKind → RelationDurability
  | .frameMember => .durable
  | .tileGroup | .splitPair => .session

inductive EdgeAssertion
  | semantic (subKind : SemanticSubKind) (label : Option Str)
  | containment (subKind : ContainmentSubKind)
  | arrangement (subKind : ArrangementSubKind)
  | imported (subKind : ImportedSubKind)
  | provenance (subKind : ProvenanceSubKind)
  deriving DecidableEq

inductive RelationSelector
  | family (family : EdgeFamily)
  | semantic (subKind : SemanticSubKind)
  | containment (subKind : ContainmentSubKind)
  | arrangement (subKind : ArrangementSubKind)
  | imported (subKind : ImportedSubKind)
  | provenance (subKind : ProvenanceSubKind)
  deriving DecidableEq

inductive NavigationTrigger
  | unknown | linkClick | back | forward | addressBarEntry | panePromotion | programmatic | redirect
  | reopenSession | jumpAnchor | inPageSearchJump | importedHistory
  deriving DecidableEq

def NavigationTrigger.contributesToForwardCount (trigger : NavigationTrigger) : Bool :=
  trigger != .back

inductive GraphScope
  | default | source | user | agent | moot
  | custom (name : Str)
  deriving DecidableEq

def predicateIri : SemanticSubKind → Str
  | .hyperlink => text "https://mere.computer/ns/rel#hyperlink"
  | .userGrouped => text "https://mere.computer/ns/rel#user-grouped"
  | .agentDerived => text "https://mere.computer/ns/rel#agent-derived"
  | .cites => text "https://mere.computer/ns/rel#cites"
  | .quotes => text "https://mere.computer/ns/rel#quotes"
  | .summarizes => text "https://mere.computer/ns/rel#summarizes"
  | .elaborates => text "https://mere.computer/ns/rel#elaborates"
  | .exampleOf => text "https://mere.computer/ns/rel#example-of"
  | .supports => text "https://mere.computer/ns/rel#supports"
  | .contradicts => text "https://mere.computer/ns/rel#contradicts"
  | .questions => text "https://mere.computer/ns/rel#questions"
  | .sameEntityAs => text "https://mere.computer/ns/rel#same-entity-as"
  | .duplicateOf => text "https://mere.computer/ns/rel#duplicate-of"
  | .canonicalMirrorOf => text "https://mere.computer/ns/rel#canonical-mirror-of"
  | .dependsOn => text "https://mere.computer/ns/rel#depends-on"
  | .blocks => text "https://mere.computer/ns/rel#blocks"
  | .nextStep => text "https://mere.computer/ns/rel#next-step"

/-! ## Statements -/

structure SemanticStatement where
  statementId : Str
  predicate : Str
  recognizedSubKind : Option SemanticSubKind
  label : Option Str
  graphScope : GraphScope
  provenanceIri : Option Str
  assertedAtMs : Option Nat
  deriving DecidableEq

/-- A statement before it has an id. -/
structure SemanticStatementSpec where
  predicate : Str
  recognizedSubKind : Option SemanticSubKind := none
  label : Option Str := none
  graphScope : GraphScope := .default
  provenanceIri : Option Str := none
  assertedAtMs : Option Nat := none
  deriving DecidableEq

structure StatementAssert where
  statementId : Str
  changed : Bool
  deriving DecidableEq

abbrev StatementKey := Option SemanticSubKind × Str × GraphScope

def SemanticStatement.key (statement : SemanticStatement) : StatementKey :=
  (statement.recognizedSubKind, statement.predicate, statement.graphScope)

def SemanticStatementSpec.key (spec : SemanticStatementSpec) : StatementKey :=
  (spec.recognizedSubKind, spec.predicate, spec.graphScope)

def SemanticStatementSpec.statement (spec : SemanticStatementSpec) (statementId : Str) :
    SemanticStatement :=
  { statementId, predicate := spec.predicate, recognizedSubKind := spec.recognizedSubKind,
    label := spec.label, graphScope := spec.graphScope, provenanceIri := spec.provenanceIri,
    assertedAtMs := spec.assertedAtMs }

def SemanticStatement.refresh (spec : SemanticStatementSpec) (statement : SemanticStatement) :
    SemanticStatement :=
  { statement with
    label := spec.label
    provenanceIri := spec.provenanceIri
    assertedAtMs := spec.assertedAtMs }

structure SemanticData where
  subKinds : Finset SemanticSubKind := ∅
  label : Option Str := none
  predicate : Option Str := none
  statements : List SemanticStatement := []
  deriving DecidableEq

def editFirst {A : Type} (p : A → Bool) (f : A → A) : List A → List A
  | [] => []
  | a :: rest => if p a then f a :: rest else a :: editFirst p f rest

def cachedLabel (statements : List SemanticStatement) : Option Str :=
  match (statements.filterMap SemanticStatement.label).dedup with
  | [] => none
  | [label] => some label
  | _ => statements.reverse.findSome? SemanticStatement.label

def cachedPredicate (statements : List SemanticStatement) : Option Str :=
  match (statements.map SemanticStatement.predicate).dedup with
  | [predicate] => some predicate
  | _ => none

def SemanticData.of (statements : List SemanticStatement) : SemanticData :=
  { subKinds := (statements.filterMap SemanticStatement.recognizedSubKind).toFinset
    label := cachedLabel statements
    predicate := cachedPredicate statements
    statements }

namespace SemanticData

variable (data : SemanticData) (statement : SemanticStatement) (spec : SemanticStatementSpec)

def assertStatement (mint : Str) : SemanticData × StatementAssert :=
  match data.statements.find? (fun s => s.key == spec.key) with
  | some existing =>
    if existing.refresh spec == existing then
      (data, ⟨existing.statementId, false⟩)
    else
      (.of (editFirst (fun s => s.key == spec.key) (SemanticStatement.refresh spec) data.statements),
        ⟨existing.statementId, true⟩)
  | none => (.of (data.statements ++ [spec.statement mint]), ⟨mint, true⟩)

def insertStatement (mint : Str) : SemanticData × Bool :=
  ((data.assertStatement spec mint).1, (data.assertStatement spec mint).2.changed)

def dropStatements (drop : SemanticStatement → Bool) : SemanticData × Bool :=
  if data.statements.any drop then
    (.of (data.statements.filter (fun s => !drop s)), true)
  else (data, false)

def retractStatement (statementId : Str) : SemanticData × Bool :=
  data.dropStatements (fun s => s.statementId == statementId)

def removeStatementsWithSubKind (subKind : SemanticSubKind) : SemanticData × Bool :=
  data.dropStatements (fun s => s.recognizedSubKind == some subKind)

/-- A statement that comes with its id. Only the id is looked for. -/
def pushPersistedStatement : SemanticData × Bool :=
  if data.statements.any (fun s => s.statementId == statement.statementId) then (data, false)
  else (.of (data.statements ++ [statement]), true)

/-- A recognised statement back to the predicate of its kind. -/
def canonical : SemanticStatement :=
  match statement.recognizedSubKind with
  | some subKind => { statement with predicate := predicateIri subKind }
  | none => statement

def setStatementPredicate (predicate : Option Str) (mint : Str) : SemanticData :=
  match predicate with
  | some predicate =>
    match data.statements with
    | [] => .of [SemanticStatementSpec.statement { predicate, label := data.label } mint]
    | statements => .of (statements.map (fun s => { s with predicate }))
  | none =>
    .of ((data.statements.filter (fun s => s.recognizedSubKind.isSome)).map canonical)

end SemanticData

/-! ## Traversals -/

structure Traversal where
  timestampMs : Nat
  trigger : NavigationTrigger
  deriving DecidableEq

structure EdgeMetrics where
  totalNavigations : Nat := 0
  forwardNavigations : Nat := 0
  backwardNavigations : Nat := 0
  lastNavigatedAt : Option Nat := none
  deriving DecidableEq

def EdgeMetrics.record (metrics : EdgeMetrics) (traversal : Traversal) : EdgeMetrics :=
  { totalNavigations := satAdd metrics.totalNavigations 1
    forwardNavigations :=
      if traversal.trigger.contributesToForwardCount then satAdd metrics.forwardNavigations 1
      else metrics.forwardNavigations
    backwardNavigations :=
      if traversal.trigger.contributesToForwardCount then metrics.backwardNavigations
      else satAdd metrics.backwardNavigations 1
    lastNavigatedAt := some traversal.timestampMs }

structure TraversalData where
  traversals : List Traversal := []
  metrics : EdgeMetrics := {}
  deriving DecidableEq

def TraversalData.push (data : TraversalData) (traversal : Traversal) : TraversalData :=
  { traversals := data.traversals ++ [traversal], metrics := data.metrics.record traversal }

/-! ## The payload -/

structure EdgePayload where
  semantic : Option SemanticData := none
  traversal : Option TraversalData := none
  arrangement : Option (Finset ArrangementSubKind) := none
  containment : Option (Finset ContainmentSubKind) := none
  imported : Option (Finset ImportedSubKind) := none
  provenance : Option (Finset ProvenanceSubKind) := none
  deriving DecidableEq

section
variable {S : Type} [DecidableEq S]

def insertKind (kinds : Option (Finset S)) (kind : S) : Option (Finset S) × Bool :=
  (some (insert kind (kinds.getD ∅)), decide (kind ∉ kinds.getD ∅))

/-- The sidecar goes with its last kind. -/
def removeKind (kinds : Option (Finset S)) (kind : S) : Option (Finset S) × Bool :=
  match kinds with
  | none => (none, false)
  | some found =>
    if kind ∈ found then
      (if found.erase kind = ∅ then none else some (found.erase kind), true)
    else (kinds, false)

def hasKind (kinds : Option (Finset S)) (kind : S) : Bool := decide (kind ∈ kinds.getD ∅)

def hasKinds (kinds : Option (Finset S)) : Bool := decide (kinds.getD ∅ ≠ ∅)

end

namespace EdgePayload

variable (payload : EdgePayload)

def semanticStatements : List SemanticStatement :=
  (payload.semantic.map SemanticData.statements).getD []

def traversals : List Traversal := (payload.traversal.map TraversalData.traversals).getD []

def metrics : EdgeMetrics := (payload.traversal.map TraversalData.metrics).getD {}

def writeSemantic (write : SemanticData → SemanticData × Bool) : EdgePayload × Bool :=
  ({ payload with semantic := some (write (payload.semantic.getD {})).1 },
    (write (payload.semantic.getD {})).2)

def shrinkSemantic (write : SemanticData → SemanticData × Bool) : EdgePayload × Bool :=
  match payload.semantic with
  | none => (payload, false)
  | some data =>
    if (write data).2 then
      ({ payload with
          semantic := if (write data).1.statements.isEmpty then none else some (write data).1 },
        true)
    else (payload, false)

def assertSemanticRelationInScope (subKind : SemanticSubKind) (label : Option Str)
    (graphScope : GraphScope) (mint : Str) : EdgePayload × Bool :=
  payload.writeSemantic (fun data => data.insertStatement
    { predicate := predicateIri subKind, recognizedSubKind := some subKind, label, graphScope } mint)

def assertSemanticPredicateInScope (predicate : Str) (graphScope : GraphScope) (mint : Str) :
    EdgePayload × Bool :=
  payload.writeSemantic (fun data => data.insertStatement { predicate, graphScope } mint)

def assertSemanticStatement (spec : SemanticStatementSpec) (mint : Str) :
    EdgePayload × StatementAssert :=
  ({ payload with semantic := some ((payload.semantic.getD {}).assertStatement spec mint).1 },
    ((payload.semantic.getD {}).assertStatement spec mint).2)

def retractSemanticStatement (statementId : Str) : EdgePayload × Bool :=
  payload.shrinkSemantic (fun data => data.retractStatement statementId)

def pushPersistedSemanticStatement (statement : SemanticStatement) : EdgePayload × Bool :=
  payload.writeSemantic (fun data => data.pushPersistedStatement statement)

def setSemanticPredicate (predicate : Option Str) (mint : Str) : EdgePayload :=
  match payload.semantic, predicate with
  | none, none => payload
  | some data, predicate =>
    { payload with
      semantic := if (data.setStatementPredicate predicate mint).statements.isEmpty then none
        else some (data.setStatementPredicate predicate mint) }
  | none, some predicate =>
    { payload with semantic := some (SemanticData.setStatementPredicate {} (some predicate) mint) }

def assertRelation (assertion : EdgeAssertion) (mint : Str) : EdgePayload × Bool :=
  match assertion with
  | .semantic subKind label => payload.assertSemanticRelationInScope subKind label .default mint
  | .containment kind =>
    ({ payload with containment := (insertKind payload.containment kind).1 },
      (insertKind payload.containment kind).2)
  | .arrangement kind =>
    ({ payload with arrangement := (insertKind payload.arrangement kind).1 },
      (insertKind payload.arrangement kind).2)
  | .imported kind =>
    ({ payload with imported := (insertKind payload.imported kind).1 },
      (insertKind payload.imported kind).2)
  | .provenance kind =>
    ({ payload with provenance := (insertKind payload.provenance kind).1 },
      (insertKind payload.provenance kind).2)

def retractRelation (selector : RelationSelector) : EdgePayload × Bool :=
  match selector with
  | .family .traversal => ({ payload with traversal := none }, payload.traversal.isSome)
  | .family _ => (payload, false)
  | .semantic subKind =>
    payload.shrinkSemantic (fun data => data.removeStatementsWithSubKind subKind)
  | .containment kind =>
    ({ payload with containment := (removeKind payload.containment kind).1 },
      (removeKind payload.containment kind).2)
  | .arrangement kind =>
    ({ payload with arrangement := (removeKind payload.arrangement kind).1 },
      (removeKind payload.arrangement kind).2)
  | .imported kind =>
    ({ payload with imported := (removeKind payload.imported kind).1 },
      (removeKind payload.imported kind).2)
  | .provenance kind =>
    ({ payload with provenance := (removeKind payload.provenance kind).1 },
      (removeKind payload.provenance kind).2)

def hasSemantic : Bool :=
  payload.semantic.any (fun data =>
    !data.statements.isEmpty || decide (data.subKinds ≠ ∅) || data.predicate.isSome)

def hasFamily : EdgeFamily → Bool
  | .semantic => payload.hasSemantic
  | .traversal => payload.traversal.isSome
  | .containment => hasKinds payload.containment
  | .arrangement => hasKinds payload.arrangement
  | .imported => hasKinds payload.imported
  | .provenance => hasKinds payload.provenance

def hasRelation : RelationSelector → Bool
  | .family family => payload.hasFamily family
  | .semantic subKind => payload.semantic.any (fun data => decide (subKind ∈ data.subKinds))
  | .containment kind => hasKind payload.containment kind
  | .arrangement kind => hasKind payload.arrangement kind
  | .imported kind => hasKind payload.imported kind
  | .provenance kind => hasKind payload.provenance kind

def isEmpty : Bool :=
  !payload.hasSemantic && payload.traversal.isNone && !hasKinds payload.containment &&
    !hasKinds payload.arrangement && !hasKinds payload.imported && !hasKinds payload.provenance

def pushTraversal (traversal : Traversal) : EdgePayload :=
  { payload with traversal := some ((payload.traversal.getD {}).push traversal) }

end EdgePayload

end Mere.Kernel
