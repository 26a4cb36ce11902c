import Mere.Kernel.Reachable

/-!
# Relations through a snapshot

What an edge asserts, written down family by family and read back, and the derivation of
containment at the end of a load.
-/

namespace Mere.Kernel

open List Finset Function
open Option hiding or_assoc

variable {P : Platform}

/-! ## What an edge asserts -/

def ContainmentSubKind.isDerived : ContainmentSubKind → Bool
  | .urlPath | .domain => true
  | _ => false

structure Asserted where
  statements : List SemanticStatement
  arrangement : Finset ArrangementSubKind
  containment : Finset ContainmentSubKind
  imported : Finset ImportedSubKind
  provenance : Finset ProvenanceSubKind
  traversals : List Traversal
  metrics : EdgeMetrics
  deriving DecidableEq

def EdgeAssertion.isKind : EdgeAssertion → Bool
  | .semantic _ _ => false
  | _ => true

namespace EdgePayload

variable {payload : EdgePayload}

def asserted (payload : EdgePayload) : Asserted :=
  { statements := payload.semanticStatements
    arrangement := (payload.arrangement.getD ∅).filter (·.durability = .durable)
    containment := (payload.containment.getD ∅).filter (fun kind => !kind.isDerived)
    imported := payload.imported.getD ∅
    provenance := payload.provenance.getD ∅
    traversals := payload.traversals
    metrics := payload.metrics }

theorem asserted_of_isEmpty (h : payload.isEmpty = true) :
    payload.asserted = asserted {} := by
  simp only [isEmpty, Bool.and_eq_true, Bool.not_eq_true', hasKinds, decide_eq_false_iff_not,
    ne_eq, not_not, isNone_iff_eq_none] at h
  obtain ⟨⟨⟨⟨⟨hsemantic, htraversal⟩, hcontainment⟩, harrangement⟩, himported⟩, hprovenance⟩ := h
  have hstatements : payload.semanticStatements = [] := by
    unfold hasSemantic at hsemantic
    unfold semanticStatements
    cases hdata : payload.semantic with
    | none => rfl
    | some data =>
      rw [hdata] at hsemantic
      simp only [any_some, Bool.or_eq_false_iff, Bool.not_eq_false', List.isEmpty_iff]
        at hsemantic
      exact hsemantic.1.1
  simp only [asserted, hstatements, harrangement, hcontainment, himported, hprovenance, traversals,
    metrics, htraversal]
  rfl

theorem getD_removeKind {S : Type} [DecidableEq S] (kinds : Option (Finset S)) (kind : S) :
    (removeKind kinds kind).1.getD ∅ = (kinds.getD ∅).erase kind := by
  cases kinds with
  | none => simp [removeKind]
  | some found =>
    unfold removeKind
    by_cases hmem : kind ∈ found
    · by_cases hlast : found.erase kind = ∅
      · simp [hmem, hlast]
      · simp [hmem, hlast]
    · simp [hmem]

variable {kind : ContainmentSubKind} (statements : List SemanticStatement)

theorem filter_erase_derived (h : kind.isDerived = true)
    (kinds : Finset ContainmentSubKind) : (kinds.erase kind).filter (fun k => !k.isDerived) =
      kinds.filter (fun k => !k.isDerived) := by
  ext k
  simp only [Finset.mem_filter, Finset.mem_erase]
  constructor
  · rintro ⟨⟨_, hmem⟩, hk⟩
    exact ⟨hmem, hk⟩
  · rintro ⟨hmem, hk⟩
    refine ⟨⟨?_, hmem⟩, hk⟩
    rintro rfl
    simp [h] at hk

theorem asserted_retract_derived (h : kind.isDerived = true) :
    (payload.retractRelation (.containment kind)).1.asserted = payload.asserted := by
  simp only [retractRelation, asserted, getD_removeKind, filter_erase_derived h]
  rfl

theorem asserted_assert_derived (h : kind.isDerived = true)
    (mint : Str) :
    (payload.assertRelation (.containment kind) mint).1.asserted = payload.asserted := by
  simp only [assertRelation, asserted, insertKind, getD_some, filter_insert, h]
  rfl

/-! ## Kinds asserted one by one -/

def assertAll (assertions : List EdgeAssertion) (payload : EdgePayload) : EdgePayload :=
  assertions.foldl (fun payload assertion => (payload.assertRelation assertion []).1) payload

/-- The kinds that are there after a list of assertions without semantic ones. -/
structure Gains (assertions : List EdgeAssertion) (payload payload' : EdgePayload) : Prop where
  semantic : payload'.semantic = payload.semantic
  traversal : payload'.traversal = payload.traversal
  containment : ∀ kind, kind ∈ payload'.containment.getD ∅ ↔
    .containment kind ∈ assertions ∨ kind ∈ payload.containment.getD ∅
  arrangement : ∀ kind, kind ∈ payload'.arrangement.getD ∅ ↔
    .arrangement kind ∈ assertions ∨ kind ∈ payload.arrangement.getD ∅
  imported : ∀ kind, kind ∈ payload'.imported.getD ∅ ↔
    .imported kind ∈ assertions ∨ kind ∈ payload.imported.getD ∅
  provenance : ∀ kind, kind ∈ payload'.provenance.getD ∅ ↔
    .provenance kind ∈ assertions ∨ kind ∈ payload.provenance.getD ∅

variable (payload : EdgePayload)

theorem gains_assertRelation {assertion : EdgeAssertion} (h : assertion.isKind = true) :
    Gains [assertion] payload (payload.assertRelation assertion []).1 := by
  cases assertion with
  | semantic subKind label => cases h
  | _ => constructor <;> simp [assertRelation, insertKind]

theorem Gains.trans {l l' : List EdgeAssertion} {payload payload' payload'' : EdgePayload}
    (h : Gains l payload payload') (h' : Gains l' payload' payload'') :
    Gains (l ++ l') payload payload'' where
  semantic := h'.semantic.trans h.semantic
  traversal := h'.traversal.trans h.traversal
  containment kind := by rw [h'.containment, h.containment, mem_append]; tauto
  arrangement kind := by rw [h'.arrangement, h.arrangement, mem_append]; tauto
  imported kind := by rw [h'.imported, h.imported, mem_append]; tauto
  provenance kind := by rw [h'.provenance, h.provenance, mem_append]; tauto

theorem gains_assertAll {assertions : List EdgeAssertion} (h : ∀ a ∈ assertions, a.isKind = true)
    (payload : EdgePayload) : Gains assertions payload (payload.assertAll assertions) := by
  induction assertions generalizing payload with
  | nil => constructor <;> simp [assertAll]
  | cons assertion rest ih =>
    have hfirst := payload.gains_assertRelation (h assertion mem_cons_self)
    exact hfirst.trans (ih (fun a ha => h a (mem_cons_of_mem _ ha)) _)

/-! ## Statements read back one by one -/

def pushAll (statements : List SemanticStatement) (payload : EdgePayload) : EdgePayload :=
  statements.foldl (fun payload statement => (payload.pushPersistedSemanticStatement statement).1)
    payload

/-- A statement is skipped where its id is known. -/
def pushNew (statements : List SemanticStatement) (statement : SemanticStatement) :
    List SemanticStatement :=
  if statements.any (fun s => s.statementId == statement.statementId) then statements
  else statements ++ [statement]

theorem semanticStatements_pushPersisted (statement : SemanticStatement) :
    (payload.pushPersistedSemanticStatement statement).1.semanticStatements =
      pushNew payload.semanticStatements statement := by
  have hget : payload.semanticStatements = (payload.semantic.getD {}).statements := by
    unfold semanticStatements
    cases payload.semantic <;> rfl
  rw [hget]
  change ((payload.semantic.getD {}).pushPersistedStatement statement).1.statements = _
  unfold SemanticData.pushPersistedStatement pushNew
  split <;> rfl

theorem pushAll_eq :
    ∃ semantic, payload.pushAll statements = { payload with semantic } ∧
      (payload.pushAll statements).semanticStatements =
        statements.foldl pushNew payload.semanticStatements := by
  induction statements generalizing payload with
  | nil => exact ⟨payload.semantic, rfl, rfl⟩
  | cons statement rest ih =>
    obtain ⟨semantic, heq, hstatements⟩ :=
      ih (payload.pushPersistedSemanticStatement statement).1
    refine ⟨semantic, heq, ?_⟩
    rw [semanticStatements_pushPersisted] at hstatements
    exact hstatements

theorem nodup_pushNew {statements : List SemanticStatement}
    (h : (statements.map SemanticStatement.statementId).Nodup) (statement : SemanticStatement) :
    ((pushNew statements statement).map SemanticStatement.statementId).Nodup := by
  unfold pushNew
  split
  · exact h
  · rename_i hnew
    rw [map_append, nodup_append]
    refine ⟨h, nodup_singleton _, ?_⟩
    rintro _ hold _ hid rfl
    obtain rfl := List.mem_singleton.mp hid
    obtain ⟨s, hs, hsame⟩ := mem_map.mp hold
    exact hnew (any_eq_true.mpr ⟨s, hs, by simpa using hsame⟩)

theorem foldl_pushNew_iff :
    statements.foldl pushNew [] = statements ↔
      (statements.map SemanticStatement.statementId).Nodup := by
  constructor
  · intro h
    have hnodup : ∀ (l known : List SemanticStatement),
        (known.map SemanticStatement.statementId).Nodup →
        ((l.foldl pushNew known).map SemanticStatement.statementId).Nodup := by
      intro l
      induction l with
      | nil => exact fun known hknown => hknown
      | cons statement rest ih => exact fun known hknown => ih _ (nodup_pushNew hknown statement)
    rw [← h]
    exact hnodup statements [] nodup_nil
  · intro h
    have happend : ∀ (l known : List SemanticStatement),
        ((known ++ l).map SemanticStatement.statementId).Nodup → l.foldl pushNew known = known ++ l := by
      intro l
      induction l with
      | nil => exact fun known _ => (append_nil known).symm
      | cons statement rest ih =>
        intro known hknown
        have hnew : pushNew known statement = known ++ [statement] := by
          unfold pushNew
          rw [if_neg]
          intro hany
          obtain ⟨s, hs, hsame⟩ := any_eq_true.mp hany
          rw [map_append, nodup_append] at hknown
          exact hknown.2.2 _ (mem_map_of_mem hs) _ (mem_map_of_mem mem_cons_self)
            (by simpa using hsame)
        rw [foldl_cons, hnew, ih (known ++ [statement]) (by simpa using hknown)]
        simp
    exact happend statements [] h

end EdgePayload

/-! ## One edge read back -/

namespace PersistedEdge

variable (pedge : PersistedEdge)

def assertions : List EdgeAssertion :=
  ((pedge.arrangement.getD []).filterMap Graph.loadedArrangement ++
    (pedge.containment.getD []).filterMap Graph.loadedContainment) ++
    ((pedge.imported.getD []).map .imported ++ (pedge.provenance.getD []).map .provenance)

def statements : List SemanticStatement :=
  (pedge.semantic.map PersistedSemanticEdgeData.statements).getD []

def read (payload : EdgePayload) : EdgePayload :=
  let read := (payload.pushAll pedge.statements).assertAll pedge.assertions
  { read with traversal := pedge.traversal.or read.traversal }

end PersistedEdge

/-- An edge that comes back as it was: no containment but what is derived, and no statement id
    twice. -/
def EdgePayload.Loadable (payload : EdgePayload) : Prop :=
  (∀ kind ∈ payload.containment.getD ∅, kind.isDerived = true) ∧
    (payload.semanticStatements.map SemanticStatement.statementId).Nodup

instance EdgePayload.loadableDecidable (payload : EdgePayload) : Decidable payload.Loadable :=
  inferInstanceAs (Decidable (_ ∧ _))

theorem mem_listed {S : Type} [DecidableEq S] {all : List S} (hall : ∀ kind, kind ∈ all)
    (kinds : Option (Finset S)) (kind : S) :
    kind ∈ (kinds.map (listed all)).getD [] ↔ kind ∈ kinds.getD ∅ := by
  cases kinds with
  | none => simp
  | some kinds => simp [listed, hall]

theorem mem_containmentSubKinds (kind : ContainmentSubKind) : kind ∈ containmentSubKinds := by
  cases kind <;> decide

theorem mem_arrangementSubKinds (kind : ArrangementSubKind) : kind ∈ arrangementSubKinds := by
  cases kind <;> decide

theorem mem_importedSubKinds (kind : ImportedSubKind) : kind ∈ importedSubKinds := by
  cases kind <;> decide

theorem mem_provenanceSubKinds (kind : ProvenanceSubKind) : kind ∈ provenanceSubKinds := by
  cases kind <;> decide

namespace EdgePayload

variable {payload : EdgePayload} (fromNodeId toNodeId : Uuid)

theorem mem_assertions {assertion : EdgeAssertion} :
    assertion ∈ (payload.persisted fromNodeId toNodeId).assertions ↔
      (∃ kind : ArrangementSubKind, kind.durability = .durable ∧
        kind ∈ payload.arrangement.getD ∅ ∧ .arrangement kind = assertion) ∨
      (∃ kind ∈ payload.containment.getD ∅, kind.isDerived = true ∧
        .containment kind = assertion) ∨
      (∃ kind ∈ payload.imported.getD ∅, .imported kind = assertion) ∨
      ∃ kind ∈ payload.provenance.getD ∅, .provenance kind = assertion := by
  have hderived : ∀ kind : ContainmentSubKind, Graph.loadedContainment kind = some assertion ↔
      kind.isDerived = true ∧ .containment kind = assertion := by
    intro kind
    cases kind <;> simp [Graph.loadedContainment, ContainmentSubKind.isDerived]
  simp only [PersistedEdge.assertions, persisted, List.mem_append, or_assoc, List.mem_filterMap,
    List.mem_map, hderived, mem_listed mem_containmentSubKinds, mem_listed mem_importedSubKinds,
    mem_listed mem_provenanceSubKinds]
  cases payload.arrangement <;>
    simp [Graph.loadedArrangement, listed, mem_arrangementSubKinds, and_assoc]

theorem Stated.persisted_statements (h : payload.Stated) :
    (payload.persisted fromNodeId toNodeId).statements = payload.semanticStatements := by
  unfold PersistedEdge.statements persisted semanticStatements
  cases hdata : payload.semantic with
  | none => rfl
  | some data =>
    have hwritten : data.persisted.isWritten = true := by
      have hne : data.persisted.statements.isEmpty = false :=
        isEmpty_eq_false_iff.mpr (h data hdata)
      unfold PersistedSemanticEdgeData.isWritten
      simp [hne]
    simp only [map_some, filter_some, hwritten, if_true, getD_some]
    rfl

/-- An edge written and read back: all of it but the containment that nothing derives, and of
    the statements the first of each id. -/
theorem Stated.asserted_read (h : payload.Stated) :
    ((payload.persisted fromNodeId toNodeId).read {}).asserted = { payload.asserted with
      statements := payload.semanticStatements.foldl pushNew []
      containment := ∅ } := by
  set pedge := payload.persisted fromNodeId toNodeId with hpedge
  obtain ⟨semantic, hpush, hstatements⟩ := EdgePayload.pushAll_eq pedge.statements {}
  have hkinds : ∀ a ∈ pedge.assertions, a.isKind = true := by
    intro a ha
    rcases (mem_assertions fromNodeId toNodeId).mp ha with
      ⟨_, _, _, rfl⟩ | ⟨_, _, _, rfl⟩ | ⟨_, _, rfl⟩ | ⟨_, _, rfl⟩ <;> rfl
  have hgains := gains_assertAll hkinds (EdgePayload.pushAll pedge.statements {})
  set read := (EdgePayload.pushAll pedge.statements {}).assertAll pedge.assertions with hread
  have hread' : pedge.read {} = { read with traversal := payload.traversal.or read.traversal } := rfl
  have htraversal : payload.traversal.or read.traversal = payload.traversal := by
    rw [hgains.traversal, hpush, or_none]
  have hsaid : read.semanticStatements = payload.semanticStatements.foldl pushNew [] := by
    rw [semanticStatements, hgains.semantic, ← h.persisted_statements fromNodeId toNodeId]
    exact hstatements
  have hcontainment : (read.containment.getD ∅).filter (fun kind => !kind.isDerived) = ∅ := by
    refine filter_eq_empty_iff.mpr fun kind hkind => ?_
    rw [hgains.containment, mem_assertions] at hkind
    simp_all
  have harrangement : (read.arrangement.getD ∅).filter (·.durability = .durable) =
      (payload.arrangement.getD ∅).filter (·.durability = .durable) := by
    ext kind
    rw [Finset.mem_filter, hgains.arrangement, hpush, mem_assertions]
    simp +contextual [and_comm, iff_def]
  have himported : read.imported.getD ∅ = payload.imported.getD ∅ := by
    ext kind
    rw [hgains.imported, hpush, mem_assertions]
    simp
  have hprovenance : read.provenance.getD ∅ = payload.provenance.getD ∅ := by
    ext kind
    rw [hgains.provenance, hpush, mem_assertions]
    simp
  rw [hread', htraversal]
  unfold asserted
  simp only [Asserted.mk.injEq]
  exact ⟨hsaid, harrangement, hcontainment, himported, hprovenance, rfl, rfl⟩

theorem Stated.asserted_read_iff (h : payload.Stated) :
    ((payload.persisted fromNodeId toNodeId).read {}).asserted = payload.asserted ↔
      payload.Loadable := by
  rw [h.asserted_read]
  unfold Loadable
  rw [← foldl_pushNew_iff]
  constructor
  · intro hsame
    refine ⟨fun kind hkind => ?_, congrArg Asserted.statements hsame⟩
    have hnone := filter_eq_empty_iff.mp (congrArg Asserted.containment hsame).symm hkind
    simpa using hnone
  · rintro ⟨hderived, hstatements⟩
    rw [hstatements]
    have hnone : (payload.containment.getD ∅).filter (fun kind => !kind.isDerived) = ∅ :=
      filter_eq_empty_iff.mpr fun kind hkind => by simp [hderived kind hkind]
    unfold asserted
    rw [hnone]

end EdgePayload

/-! ## Between two nodes -/

namespace Graph

variable {g g' g'' : Graph P}

def between (g : Graph P) (a b : Uuid) : EdgePayload :=
  match g.keysOf a b with
  | none => {}
  | some (s, t) => g.bucketOf s t

variable {a b : Uuid} {s t : Nat}

theorem keysOf_eq_some : g.keysOf a b = some (s, t) ↔
    g.getNodeKeyById a = some s ∧ g.getNodeKeyById b = some t := by
  unfold keysOf
  cases g.getNodeKeyById a <;> cases g.getNodeKeyById b <;> simp

theorem getNodeKeyById_eq_some : g.getNodeKeyById a = some s ↔
    ∃ node, g.node s = some node ∧ node.id = a :=
  g.inner.indexed a s

section

variable (h : g.keysOf a b = some (s, t))
include h

theorem between_of_keys :
    g.between a b = g.bucketOf s t := by
  unfold between
  rw [h]

theorem keysOf_inj {a' b' : Uuid} (h' : g.keysOf a' b' = some (s, t)) : a' = a ∧ b' = b := by
  have hid : ∀ {x x' : Uuid} {k : Nat}, g.getNodeKeyById x = some k → g.getNodeKeyById x' = some k →
      x' = x := by
    intro x x' k hx hx'
    obtain ⟨node, hnode, rfl⟩ := getNodeKeyById_eq_some.mp hx
    obtain ⟨node', hnode', rfl⟩ := getNodeKeyById_eq_some.mp hx'
    rw [some.inj (hnode.symm.trans hnode')]
  obtain ⟨hs, ht⟩ := keysOf_eq_some.mp h
  obtain ⟨hs', ht'⟩ := keysOf_eq_some.mp h'
  exact ⟨hid hs hs', hid ht ht'⟩

theorem live_of_keysOf :
    (g.node s).isSome ∧ (g.node t).isSome := by
  obtain ⟨hs, ht⟩ := keysOf_eq_some.mp h
  obtain ⟨node, hnode, _⟩ := getNodeKeyById_eq_some.mp hs
  obtain ⟨node', hnode', _⟩ := getNodeKeyById_eq_some.mp ht
  exact ⟨by rw [hnode]; rfl, by rw [hnode']; rfl⟩

end

theorem EdgesOnly.keysOf (h : EdgesOnly g g') (a b : Uuid) : g'.keysOf a b = g.keysOf a b := by
  obtain ⟨inner, rfl, _, hbyId⟩ := h
  unfold Graph.keysOf getNodeKeyById Chartulary.Graph.keyOf
  rw [hbyId]

/-! ## One bucket rewritten -/

/-- The bucket between two nodes is rewritten by `f`, all others are as they were. -/
structure Rewrites (g : Graph P) (a b : Uuid) (f : EdgePayload → EdgePayload) (g' : Graph P) :
    Prop where
  edges : EdgesOnly g g'
  simple : g.inner.Simple → g'.inner.Simple
  between : g.inner.Simple → ∀ a' b',
    g'.between a' b' = if a' = a ∧ b' = b then f (g.between a b) else g.between a' b'

namespace Rewrites

variable {f f' : EdgePayload → EdgePayload}

theorem refl (g : Graph P) (a b : Uuid) : Rewrites g a b id g where
  edges := .refl g
  simple h := h
  between _ a' b' := by
    split
    · rename_i hsame
      rw [hsame.1, hsame.2]
      rfl
    · rfl

theorem trans (h : Rewrites g a b f g') (h' : Rewrites g' a b f' g'') :
    Rewrites g a b (f' ∘ f) g'' where
  edges := h.edges.trans h'.edges
  simple hs := h'.simple (h.simple hs)
  between hs a' b' := by
    rw [h'.between (h.simple hs)]
    split
    · rw [h.between hs, if_pos ⟨rfl, rfl⟩]
      rfl
    · rename_i hother
      rw [h.between hs, if_neg hother]

theorem of_relinks {s t : Nat} {old : EdgePayload} {new : Option EdgePayload} {inner : Inner}
    (hkeys : g.keysOf a b = some (s, t)) (h : Relinks g.inner s t old new inner)
    (hnew : new.getD {} = f old) : Rewrites g a b f { g with inner } where
  edges := .of_relinks h
  simple := h.simple
  between hs a' b' := by
    have hkept : ∀ a' b', Graph.keysOf { g with inner } a' b' = g.keysOf a' b' :=
      fun a' b' => (EdgesOnly.of_relinks h).keysOf a' b'
    have hold : g.bucketOf s t = old := h.old hs
    cases hkeys' : g.keysOf a' b' with
    | none =>
      have hother : ¬ (a' = a ∧ b' = b) := by
        rintro ⟨rfl, rfl⟩
        rw [hkeys] at hkeys'
        cases hkeys'
      unfold Graph.between
      rw [if_neg hother, hkept, hkeys']
    | some keys =>
      obtain ⟨s', t'⟩ := keys
      rw [between_of_keys hkeys, between_of_keys hkeys', between_of_keys ((hkept a' b').trans hkeys')]
      change (inner.link s' t').getD {} = _
      rw [h.link hs]
      by_cases hsame : s' = s ∧ t' = t
      · obtain ⟨rfl, rfl⟩ := hsame
        rw [if_pos ⟨rfl, rfl⟩, if_pos (keysOf_inj hkeys hkeys'), hold, hnew]
      · rw [if_neg hsame, if_neg]
        · rfl
        · rintro ⟨rfl, rfl⟩
          rw [hkeys] at hkeys'
          obtain ⟨rfl, rfl⟩ := Prod.mk.inj (some.inj hkeys')
          exact hsame ⟨rfl, rfl⟩

end Rewrites

variable {pedge : PersistedEdge} (nowSecs : Nat)

theorem writeEdge_rewrites (hkeys : g.keysOf a b = some (s, t))
    (write : EdgePayload → EdgePayload) : Rewrites g a b write (writeEdge s t write g) := by
  obtain ⟨hs, ht⟩ := live_of_keysOf hkeys
  obtain ⟨inner, old, key, hwrite, hlink⟩ :=
    g.writeBucket_of_live hs ht fun payload => (write payload, ())
  unfold writeEdge
  rw [hwrite]
  exact .of_relinks hkeys hlink rfl

theorem assertRelation_rewrites (hkeys : g.keysOf a b = some (s, t))
    (assertion : EdgeAssertion) : Rewrites g a b
      (fun payload => (payload.assertRelation assertion []).1)
      (g.assertRelation s t assertion []).1 := by
  obtain ⟨hs, ht⟩ := live_of_keysOf hkeys
  obtain ⟨inner, old, heq, hlink⟩ := g.assertRelation_relinks hs ht assertion
  rw [heq]
  exact .of_relinks hkeys hlink rfl

theorem assertAll_rewrites (assertions : List EdgeAssertion) (g : Graph P)
    (hkeys : g.keysOf a b = some (s, t)) : Rewrites g a b (EdgePayload.assertAll assertions)
      (assertions.foldl (fun g assertion => (g.assertRelation s t assertion []).1) g) := by
  induction assertions generalizing g with
  | nil => exact .refl g a b
  | cons assertion rest ih =>
    have hfirst := assertRelation_rewrites hkeys assertion
    exact hfirst.trans (ih _ ((hfirst.edges.keysOf a b).trans hkeys))

theorem loadKinds_rewrites {S : Type} (assertion : S → Option EdgeAssertion)
    (kinds : Option (List S)) (hkeys : g.keysOf a b = some (s, t)) :
    Rewrites g a b (EdgePayload.assertAll ((kinds.getD []).filterMap assertion))
      (loadKinds s t assertion kinds g) :=
  assertAll_rewrites _ g hkeys

theorem loadSemantic_rewrites (mint : Nat → Str)
    (hkeys : g.keysOf a b = some (s, t)) {semantic : PersistedSemanticEdgeData}
    (hstated : semantic.statements ≠ []) :
    Rewrites g a b (EdgePayload.pushAll semantic.statements) (loadSemantic s t mint semantic g) := by
  have hne : (!semantic.statements.isEmpty) = true := by
    rw [isEmpty_eq_false_iff.mpr hstated]
    rfl
  unfold loadSemantic
  rw [if_pos hne]
  exact writeEdge_rewrites hkeys _

theorem loadTraversal_rewrites (hkeys : g.keysOf a b = some (s, t))
    (traversal : Option TraversalData) :
    Rewrites g a b (fun payload => { payload with traversal := traversal.or payload.traversal })
      (loadTraversal s t traversal g) := by
  cases traversal with
  | none => exact .refl g a b
  | some data => exact writeEdge_rewrites hkeys _

theorem loadEdge_rewrites (mint : Nat → Str)
    (hkeys : g.keysOf pedge.fromNodeId pedge.toNodeId = some (s, t))
    (hstated : ∀ data, pedge.semantic = some data → data.statements ≠ []) :
    Rewrites g pedge.fromNodeId pedge.toNodeId pedge.read (loadEdge mint g pedge) := by
  have hsemantic : ∃ said, Rewrites g pedge.fromNodeId pedge.toNodeId
      (EdgePayload.pushAll pedge.statements) said ∧
      loadEdge mint g pedge = loadTraversal s t pedge.traversal
        (loadKinds s t (fun kind => some (.provenance kind)) pedge.provenance
          (loadKinds s t (fun kind => some (.imported kind)) pedge.imported
            (loadKinds s t loadedContainment pedge.containment
              (loadKinds s t loadedArrangement pedge.arrangement said)))) := by
    unfold loadEdge PersistedEdge.statements
    rw [hkeys]
    cases hdata : pedge.semantic with
    | none => exact ⟨g, .refl g _ _, rfl⟩
    | some data => exact ⟨_, loadSemantic_rewrites mint hkeys (hstated data hdata), rfl⟩
  obtain ⟨said, hsemantic, heq⟩ := hsemantic
  have harrangement := hsemantic.trans (loadKinds_rewrites loadedArrangement pedge.arrangement
    ((hsemantic.edges.keysOf _ _).trans hkeys))
  have hcontainment := harrangement.trans (loadKinds_rewrites loadedContainment pedge.containment
    ((harrangement.edges.keysOf _ _).trans hkeys))
  have himported := hcontainment.trans (loadKinds_rewrites (fun kind => some (.imported kind))
    pedge.imported ((hcontainment.edges.keysOf _ _).trans hkeys))
  have hprovenance := himported.trans (loadKinds_rewrites (fun kind => some (.provenance kind))
    pedge.provenance ((himported.edges.keysOf _ _).trans hkeys))
  have htraversal := hprovenance.trans (loadTraversal_rewrites
    ((hprovenance.edges.keysOf _ _).trans hkeys) pedge.traversal)
  convert htraversal using 1
  funext payload
  simp only [PersistedEdge.read, PersistedEdge.assertions, EdgePayload.assertAll, foldl_append,
    comp_apply, filterMap_eq_map']

/-! ## All edges -/

theorem loadEdges_between (mint : Nat → Nat → Str) (pedges : List (PersistedEdge × Nat))
    (g : Graph P) (hsimple : g.inner.Simple)
    (hkeys : ∀ p ∈ pedges, (g.keysOf p.1.fromNodeId p.1.toNodeId).isSome)
    (hstated : ∀ p ∈ pedges, ∀ data, p.1.semantic = some data → data.statements ≠ [])
    (hpairs : (pedges.map fun p => (p.1.fromNodeId, p.1.toNodeId)).Nodup) :
    EdgesOnly g (pedges.foldl (fun g p => loadEdge (mint p.2) g p.1) g) ∧
      (pedges.foldl (fun g p => loadEdge (mint p.2) g p.1) g).inner.Simple ∧
      (∀ p ∈ pedges, (pedges.foldl (fun g p => loadEdge (mint p.2) g p.1) g).between
        p.1.fromNodeId p.1.toNodeId = p.1.read (g.between p.1.fromNodeId p.1.toNodeId)) ∧
      ∀ a b, (a, b) ∉ pedges.map (fun p => (p.1.fromNodeId, p.1.toNodeId)) →
        (pedges.foldl (fun g p => loadEdge (mint p.2) g p.1) g).between a b = g.between a b := by
  induction pedges generalizing g with
  | nil => exact ⟨.refl g, hsimple, nofun, fun _ _ _ => rfl⟩
  | cons p rest ih =>
    obtain ⟨hnew, hpairs⟩ := nodup_cons.mp hpairs
    obtain ⟨⟨s, t⟩, hst⟩ := isSome_iff_exists.mp (hkeys p mem_cons_self)
    have hfirst := loadEdge_rewrites (mint p.2) hst (hstated p mem_cons_self)
    obtain ⟨hedges, hs, hread, hother⟩ := ih (loadEdge (mint p.2) g p.1) (hfirst.simple hsimple)
      (fun q hq => by rw [hfirst.edges.keysOf]; exact hkeys q (mem_cons_of_mem _ hq))
      (fun q hq => hstated q (mem_cons_of_mem _ hq)) hpairs
    rw [foldl_cons]
    refine ⟨hfirst.edges.trans hedges, hs, ?_, ?_⟩
    · intro q hq
      rcases mem_cons.mp hq with rfl | hq
      · rw [hother _ _ hnew, hfirst.between hsimple, if_pos ⟨rfl, rfl⟩]
      · rw [hread q hq, hfirst.between hsimple, if_neg]
        rintro ⟨hfrom, hto⟩
        exact hnew (mem_map.mpr ⟨q, hq, by rw [hfrom, hto]⟩)
    · intro a b hab
      rw [List.map_cons, List.mem_cons, not_or] at hab
      rw [hother a b hab.2, hfirst.between hsimple, if_neg]
      rintro ⟨rfl, rfl⟩
      exact hab.1 rfl

/-! ## Containment derived anew -/

/-- Edges are written, and no bucket asserts anything else than before. -/
structure Redrawn (g g' : Graph P) : Prop where
  edges : EdgesOnly g g'
  simple : g.inner.Simple → g'.inner.Simple
  asserted : g.inner.Simple → ∀ a b, (g'.between a b).asserted = (g.between a b).asserted

namespace Redrawn

theorem refl (g : Graph P) : Redrawn g g := ⟨.refl g, fun h => h, fun _ _ _ => rfl⟩

theorem trans (h : Redrawn g g') (h' : Redrawn g' g'') : Redrawn g g'' where
  edges := h.edges.trans h'.edges
  simple hs := h'.simple (h.simple hs)
  asserted hs a b := (h'.asserted (h.simple hs) a b).trans (h.asserted hs a b)

theorem of_relinks {s t : Nat} {old : EdgePayload} {new : Option EdgePayload} {inner : Inner}
    (h : Relinks g.inner s t old new inner) (hnew : (new.getD {}).asserted = old.asserted) :
    Redrawn g { g with inner } where
  edges := .of_relinks h
  simple := h.simple
  asserted hs a b := by
    have hkept : Graph.keysOf { g with inner } a b = g.keysOf a b :=
      (EdgesOnly.of_relinks h).keysOf a b
    unfold between
    rw [hkept]
    split
    · rfl
    · rename_i s' t' _
      change ((inner.link s' t').getD {}).asserted = _
      rw [h.link hs]
      split
      · rename_i hsame
        rw [hsame.1, hsame.2, hnew, ← h.old hs]
        rfl
      · rfl

end Redrawn

theorem clearDerived_redrawn (keys : List Nat) (g : Graph P) :
    Redrawn g { g with inner := keys.foldl clearDerived g.inner } := by
  induction keys generalizing g with
  | nil => exact .refl g
  | cons key keys ih =>
    have hone : Redrawn g { g with inner := clearDerived g.inner key } := by
      unfold clearDerived
      rcases shrinkEdge_relinks g.inner key _ with hsame | ⟨s, t, old, _, hlink⟩
      · rw [hsame]
        exact .refl g
      · refine .of_relinks hlink ?_
        have hcleared : ((old.retractRelation (.containment .urlPath)).1.retractRelation
            (.containment .domain)).1.asserted = old.asserted := by
          rw [EdgePayload.asserted_retract_derived rfl, EdgePayload.asserted_retract_derived rfl]
        split
        · rename_i hempty
          rw [← hcleared, EdgePayload.asserted_of_isEmpty hempty]
          rfl
        · exact hcleared
    exact hone.trans (ih { g with inner := clearDerived g.inner key })

theorem assertContainment_redrawn {subKind : ContainmentSubKind} (h : subKind.isDerived = true)
    (edges : List (Nat × Nat)) (g : Graph P) : Redrawn g (assertContainment subKind g edges) := by
  induction edges generalizing g with
  | nil => exact .refl g
  | cons p rest ih =>
    refine Redrawn.trans ?_ (ih _)
    dsimp only
    by_cases hlive : (g.node p.1).isNone ∨ (g.node p.2).isNone
    · rw [g.assertRelation_of_dead hlive]
      exact .refl g
    · obtain ⟨hs, ht⟩ := live_iff.mp hlive
      obtain ⟨inner, old, heq, hlink⟩ := g.assertRelation_relinks hs ht (.containment subKind)
      rw [heq]
      exact .of_relinks hlink (EdgePayload.asserted_assert_derived h [])

theorem rebuildDerivedContainmentRelations_redrawn (g : Graph P) :
    Redrawn g g.rebuildDerivedContainmentRelations :=
  (clearDerived_redrawn _ g).trans
    ((assertContainment_redrawn rfl _ _).trans (assertContainment_redrawn rfl _ _))

/-! ## A graph saved and loaded -/

theorem persistedEdge_eq_some {e : Chartulary.Edge EdgePayload} :
    g.persistedEdge e = some pedge ↔
      ∃ a b, g.keysOf a b = some (e.source, e.target) ∧ pedge = e.weight.persisted a b := by
  constructor
  · intro hpedge
    obtain ⟨⟨a, b⟩, hids, rfl⟩ := map_eq_some_iff.mp hpedge
    obtain ⟨node, hnode, htarget⟩ := bind_eq_some_iff.mp hids
    obtain ⟨node', hnode', hpair⟩ := bind_eq_some_iff.mp htarget
    obtain ⟨rfl, rfl⟩ := Prod.mk.inj (some.inj hpair)
    exact ⟨node.id, node'.id, keysOf_eq_some.mpr ⟨getNodeKeyById_eq_some.mpr ⟨node, hnode, rfl⟩,
      getNodeKeyById_eq_some.mpr ⟨node', hnode', rfl⟩⟩, rfl⟩
  · rintro ⟨a, b, hkeys, rfl⟩
    obtain ⟨hs, ht⟩ := keysOf_eq_some.mp hkeys
    obtain ⟨node, hnode, rfl⟩ := getNodeKeyById_eq_some.mp hs
    obtain ⟨node', hnode', rfl⟩ := getNodeKeyById_eq_some.mp ht
    simp only [persistedEdge, idsOf, hnode, hnode', bind, pure, bind_some, map_some]

theorem mem_savedEdges :
    pedge ∈ (g.toSnapshot nowSecs).edges ↔ ∃ key e a b, g.inner.edges.get key = some e ∧
      g.keysOf a b = some (e.source, e.target) ∧ pedge = e.weight.persisted a b := by
  simp only [toSnapshot, List.mem_filterMap, Prod.exists, Arena.mem_toList, persistedEdge_eq_some]
  constructor
  · rintro ⟨key, e, hget, a, b, hsaved⟩
    exact ⟨key, e, a, b, hget, hsaved⟩
  · rintro ⟨key, e, a, b, hget, hsaved⟩
    exact ⟨key, e, hget, a, b, hsaved⟩

theorem savedEdges_pairs (hsimple : g.inner.Simple) (nowSecs : Nat) :
    ((g.toSnapshot nowSecs).edges.map fun e => (e.fromNodeId, e.toNodeId)).Nodup := by
  have hkeys : g.inner.edges.toList.Pairwise (fun p q => p.1 ≠ q.1) :=
    pairwise_map.mp g.inner.edges.nodup_keys
  refine pairwise_map.mpr ?_
  change (g.inner.edges.toList.filterMap fun p => g.persistedEdge p.2).Pairwise _
  rw [pairwise_filterMap]
  refine hkeys.imp_of_mem fun {p q} hp hq hne pedge hpedge pedge' hpedge' hsame => hne ?_
  obtain ⟨a, b, hab, rfl⟩ := persistedEdge_eq_some.mp hpedge
  obtain ⟨a', b', hab', rfl⟩ := persistedEdge_eq_some.mp hpedge'
  obtain ⟨rfl, rfl⟩ : a = a' ∧ b = b' := Prod.mk.inj hsame
  obtain ⟨hsource, htarget⟩ := Prod.mk.inj (some.inj (hab.symm.trans hab'))
  exact hsimple.unique p.1 q.1 p.2 q.2 ((Arena.mem_toList _ _ _).mp hp)
    ((Arena.mem_toList _ _ _).mp hq) hsource htarget

theorem savedNodes_ids (id : Uuid) :
    id ∈ (g.toSnapshot nowSecs).nodes.map PersistedNode.nodeId ↔ (g.getNodeKeyById id).isSome := by
  simp only [toSnapshot, Graph.nodes, List.map_map, List.mem_map, comp_apply, Prod.exists,
    Arena.mem_toList, isSome_iff_exists, getNodeKeyById_eq_some]
  rfl

theorem savedNodes_nodup :
    ((g.toSnapshot nowSecs).nodes.map PersistedNode.nodeId).Nodup := by
  have hkeys : g.inner.nodes.toList.Pairwise (fun p q => p.1 ≠ q.1) :=
    List.pairwise_map.mp g.inner.nodes.nodup_keys
  change ((g.inner.nodes.toList.map fun p => p.2.persisted).map PersistedNode.nodeId).Nodup
  rw [List.map_map]
  refine List.pairwise_map.mpr (hkeys.imp_of_mem fun {p q} hp hq hne hsame => hne ?_)
  exact g.inner.key_unique ((Arena.mem_toList _ _ _).mp hp) ((Arena.mem_toList _ _ _).mp hq) hsame

theorem between_of_inner (h : g'.inner = g.inner) (a b : Uuid) :
    g'.between a b = g.between a b := by
  unfold between keysOf getNodeKeyById bucketOf
  rw [h]

theorem between_of_edges (h : g.inner.edges = {}) (a b : Uuid) : g.between a b = {} := by
  unfold between
  split
  · rfl
  · rename_i s t _
    unfold bucketOf
    have hsimple : g.inner.Simple := Chartulary.Graph.Simple.empty.of_edges h
    cases hlink : g.inner.link s t with
    | none => rfl
    | some w =>
      obtain ⟨key, hkey⟩ := hsimple.link_eq_some.mp hlink
      rw [h] at hkey
      exact nomatch (Arena.get_empty key).symm.trans hkey

theorem load_edges_asserted {snapshot : GraphSnapshot P} {nowMs : Nat} {mint : Nat → Nat → Str}
    {loaded : Graph P}
    (hloaded : snapshot.nodes.foldlM (loadNode nowMs) { nav := snapshot.navigation } = some loaded)
    (hsimple : (snapshot.edges.zipIdx.foldl
      (fun g p => loadEdge (mint p.2) g p.1) loaded).inner.Simple) :
    ∃ g', fromSnapshot nowMs mint snapshot = some g' ∧ ∀ a b, (g'.between a b).asserted =
      ((snapshot.edges.zipIdx.foldl (fun g p => loadEdge (mint p.2) g p.1) loaded).between
        a b).asserted := by
  have hinner : (loadRecords snapshot.importRecords snapshot.timestampSecs
      (snapshot.couplings.foldl addCoupling (loadFields snapshot.fields
        (snapshot.edges.zipIdx.foldl (fun g p => loadEdge (mint p.2) g p.1) loaded)))).inner =
      (snapshot.edges.zipIdx.foldl (fun g p => loadEdge (mint p.2) g p.1) loaded).inner := by
    obtain ⟨store, records, hrecords⟩ := loadRecords_eq snapshot.importRecords
      snapshot.timestampSecs (snapshot.couplings.foldl addCoupling (loadFields snapshot.fields
        (snapshot.edges.zipIdx.foldl (fun g p => loadEdge (mint p.2) g p.1) loaded)))
    rw [hrecords, addCouplings_eq, loadFields_eq]
  unfold fromSnapshot
  rw [hloaded]
  refine ⟨_, rfl, fun a b => ?_⟩
  rw [(rebuildDerivedContainmentRelations_redrawn _).asserted (by rw [hinner]; exact hsimple) a b,
    between_of_inner hinner]

/-- After a save and a load an edge asserts what was read of it, and no edge asserts nothing. -/
theorem Coherent.load_saved (h : g.Coherent) (nowSecs nowMs : Nat) (mint : Nat → Nat → Str) :
    ∃ g', fromSnapshot nowMs mint (g.toSnapshot nowSecs) = some g' ∧
      (∀ a b s t w, g.keysOf a b = some (s, t) → g.inner.link s t = some w →
        (g'.between a b).asserted = ((w.persisted a b).read {}).asserted) ∧
      ∀ a b, (∀ s t, g.keysOf a b = some (s, t) → g.inner.link s t = none) →
        (g'.between a b).asserted = EdgePayload.asserted {} := by
  obtain ⟨loaded, hloaded, honly, hnodes, _⟩ := loadNodes_spec nowMs (g.toSnapshot nowSecs).nodes
    { nav := g.nav } (g.savedNodes_nodup nowSecs) h.nav.currentUrl_isSome
  have hnone : ∀ a b, loaded.between a b = {} := between_of_edges honly.edges
  have hlive : ∀ id, (g.getNodeKeyById id).isSome → (loaded.getNodeKeyById id).isSome := by
    intro id hid
    obtain ⟨pnode, hpnode, rfl⟩ := List.mem_map.mp ((g.savedNodes_ids nowSecs id).mpr hid)
    refine (loaded.inner.isSome_keyOf pnode.nodeId).trans ?_
    rw [hnodes pnode hpnode]
    rfl
  -- Every stored edge comes from one of the graph, between two of its nodes.
  have hfrom : ∀ p ∈ (g.toSnapshot nowSecs).edges.zipIdx,
      ∃ key e a b, g.inner.edges.get key = some e ∧
        g.keysOf a b = some (e.source, e.target) ∧ p.1 = e.weight.persisted a b :=
    fun p hp => (mem_savedEdges nowSecs).mp (List.fst_mem_of_mem_zipIdx hp)
  obtain ⟨_, hsimple, hread, hother⟩ := loadEdges_between mint (g.toSnapshot nowSecs).edges.zipIdx
    loaded (Chartulary.Graph.Simple.empty.of_edges honly.edges)
    (by
      intro p hp
      obtain ⟨_, e, a, b, _, hkeys, heq⟩ := hfrom p hp
      obtain ⟨hs, ht⟩ := keysOf_eq_some.mp hkeys
      obtain ⟨s, hs'⟩ := isSome_iff_exists.mp (hlive a (by rw [hs]; rfl))
      obtain ⟨t, ht'⟩ := isSome_iff_exists.mp (hlive b (by rw [ht]; rfl))
      rw [heq]
      exact isSome_iff_exists.mpr ⟨(s, t), keysOf_eq_some.mpr ⟨hs', ht'⟩⟩)
    (by
      intro p hp data hdata
      obtain ⟨key, e, a, b, hget, hkeys, heq⟩ := hfrom p hp
      rw [heq] at hdata
      obtain ⟨hmap, _⟩ := filter_eq_some_iff.mp hdata
      obtain ⟨found, hfound, rfl⟩ := map_eq_some_iff.mp hmap
      exact h.edges.payload _ _ _ (h.edges.simple.link_eq_some.mpr ⟨key, hget⟩) found hfound)
    (by
      have := g.savedEdges_pairs h.edges.simple nowSecs
      rwa [← List.zipIdx_map_fst 0 (g.toSnapshot nowSecs).edges, List.map_map] at this)
  obtain ⟨g', hg', hasserted⟩ := load_edges_asserted hloaded hsimple
  refine ⟨g', hg', ?_, ?_⟩
  · intro a b s t w hkeys hlink
    obtain ⟨key, hget⟩ := h.edges.simple.link_eq_some.mp hlink
    have hsaved := (mem_savedEdges nowSecs).mpr ⟨key, _, a, b, hget, hkeys, rfl⟩
    rw [← List.zipIdx_map_fst 0 (g.toSnapshot nowSecs).edges] at hsaved
    obtain ⟨⟨pedge, i⟩, hp, rfl⟩ := List.mem_map.mp hsaved
    have hbetween := hread _ hp
    rw [hnone] at hbetween
    rw [hasserted]
    exact congrArg EdgePayload.asserted hbetween
  · intro a b hlink
    rw [hasserted, hother, hnone]
    intro hmem
    obtain ⟨p, hp, hpair⟩ := List.mem_map.mp hmem
    obtain ⟨key, e, a', b', hget, hkeys, heq⟩ := hfrom p hp
    rw [heq] at hpair
    obtain ⟨rfl, rfl⟩ := Prod.mk.inj hpair
    have hfound := h.edges.simple.link_eq_some.mpr ⟨key, hget⟩
    rw [hlink _ _ hkeys] at hfound
    cases hfound

end Graph

/-- Loading what was saved gives a graph, and every pair of nodes has the relations it had exactly
    where each edge is loadable. -/
theorem relations_round_trip_iff {g : Graph P} (h : g.Reachable) (nowSecs nowMs : Nat)
    (mint : Nat → Nat → Str) :
    ∃ g', Graph.fromSnapshot nowMs mint (g.toSnapshot nowSecs) = some g' ∧
      ((∀ a b, (g'.between a b).asserted = (g.between a b).asserted) ↔
        ∀ key edge, g.inner.edge key = some edge → edge.weight.Loadable) := by
  have hcoherent := h.coherent
  obtain ⟨g', hg', hread, hnone⟩ := hcoherent.load_saved nowSecs nowMs mint
  refine ⟨g', hg', ?_, ?_⟩
  · intro hsame key edge hedge
    obtain ⟨⟨source, hsource⟩, target, htarget⟩ := g.inner.ends key edge hedge
    have hkeys : g.keysOf source.id target.id = some (edge.source, edge.target) :=
      Graph.keysOf_eq_some.mpr ⟨Graph.getNodeKeyById_eq_some.mpr ⟨source, hsource, rfl⟩,
        Graph.getNodeKeyById_eq_some.mpr ⟨target, htarget, rfl⟩⟩
    have hlink := hcoherent.edges.simple.link_eq_some.mpr ⟨key, hedge⟩
    have hstated := hcoherent.edges.payload _ _ _ hlink
    refine (hstated.asserted_read_iff source.id target.id).mp ?_
    rw [← hread _ _ _ _ _ hkeys hlink, hsame, Graph.between_of_keys hkeys, Graph.bucketOf, hlink]
    rfl
  · intro hloadable a b
    cases hkeys : g.keysOf a b with
    | none =>
      rw [hnone a b (fun s t h => nomatch hkeys.symm.trans h), Graph.between, hkeys]
    | some keys =>
      obtain ⟨s, t⟩ := keys
      rw [Graph.between_of_keys hkeys, Graph.bucketOf]
      cases hlink : g.inner.link s t with
      | none =>
        refine hnone a b fun s' t' h => ?_
        obtain ⟨rfl, rfl⟩ := Prod.mk.inj (some.inj (h.symm.trans hkeys))
        exact hlink
      | some w =>
        obtain ⟨key, hget⟩ := hcoherent.edges.simple.link_eq_some.mp hlink
        rw [hread a b s t w hkeys hlink]
        exact ((hcoherent.edges.payload s t w hlink).asserted_read_iff a b).mpr
          (hloadable key _ hget)

def filedSteps (delta : GraphDelta plainPlatform) : List (Tick × GraphDelta plainPlatform) :=
  [(⟨0, 0, 0, 0, [1]⟩, .addNode (some 1) [97]), (⟨0, 0, 0, 0, [1]⟩, .addNode (some 2) [98]),
    (⟨0, 0, 0, 0, [1]⟩, delta)]

theorem reachable_of_runs {steps : List (Tick × GraphDelta P)} {g : Graph P}
    (h : runs Graph.step {} steps = some g) : g.Reachable :=
  Reach.runs .start h fun _ _ _ => trivial

/-- A statement comes back. -/
theorem relations_round_trip_iff_stated : ∃ g : Graph plainPlatform, g.Reachable ∧
    (g.between 1 2).asserted.statements.length = 1 ∧
    ∃ g', Graph.fromSnapshot 0 (fun _ _ => []) (g.toSnapshot 0) = some g' ∧
      ∀ a b, (g'.between a b).asserted = (g.between a b).asserted := by
  have hrun : (runs Graph.step {} (filedSteps (.assertSemanticPredicate 0 1 [112]))).map (fun g =>
      ((g.between 1 2).asserted.statements.length,
        decide (∀ p ∈ g.inner.edges.toList, p.2.weight.Loadable))) = some (1, true) := by
    decide +kernel
  obtain ⟨g, hg, hdata⟩ := map_eq_some_iff.mp hrun
  obtain ⟨hone, hloadable⟩ := Prod.mk.inj hdata
  have hreach := reachable_of_runs hg
  obtain ⟨g', hload, hiff⟩ := relations_round_trip_iff hreach 0 0 fun _ _ => []
  refine ⟨g, hreach, hone, g', hload, hiff.mpr fun key edge hedge => ?_⟩
  exact of_decide_eq_true hloadable (key, edge) ((Arena.mem_toList _ _ _).mpr hedge)

/-- A node filed in a folder is not there after a load. -/
theorem relations_lost : ∃ g g' : Graph plainPlatform, g.Reachable ∧
    Graph.fromSnapshot 0 (fun _ _ => []) (g.toSnapshot 0) = some g' ∧
    (g.between 1 2).asserted.containment = {.userFolder} ∧
    (g'.between 1 2).asserted.containment = ∅ := by
  have hrun : ((runs Graph.step {} (filedSteps (.assertRelation 0 1 (.containment .userFolder)))).bind
      fun g => (Graph.fromSnapshot 0 (fun _ _ => []) (g.toSnapshot 0)).map fun g' =>
        ((g.between 1 2).asserted.containment, (g'.between 1 2).asserted.containment)) =
      some ({.userFolder}, ∅) := by
    decide +kernel
  obtain ⟨g, hg, hload⟩ := bind_eq_some_iff.mp hrun
  obtain ⟨g', hg', hdata⟩ := map_eq_some_iff.mp hload
  obtain ⟨hfolder, hgone⟩ := Prod.mk.inj hdata
  exact ⟨g, g', reachable_of_runs hg, hg', hfolder, hgone⟩

/-- No node has a body beside a content, what is kept under an id has that id, and every history
can be read. -/
theorem reachable_in_order {g : Graph P} (h : g.Reachable) :
    (∀ key node, g.node key = some node → node.content = none ∨ node.body = none) ∧
      Normal P.isBlank g.importRecords ∧ Graph.FieldsKeyed g.fields ∧
      Graph.CouplingsKeyed g.couplings ∧
      ∀ id, (g.nav.projection id).isSome ∧ (g.nav.currentUrl id).isSome := by
  obtain ⟨-, hnav, hrecords, hfields, hcouplings, hbody⟩ := h.coherent
  exact ⟨hbody, hrecords, hfields, hcouplings,
    fun id => ⟨hnav.projection_isSome id, hnav.currentUrl_isSome id⟩⟩

theorem reachable_in_order_filed : ∃ g : Graph plainPlatform,
    runs Graph.step {} (filedSteps (.assertSemanticPredicate 0 1 [112])) = some g ∧
      ∀ id, (g.nav.projection id).isSome := by
  have hrun : (runs Graph.step {} (filedSteps (.assertSemanticPredicate 0 1 [112]))).isSome := by
    decide +kernel
  obtain ⟨g, hg⟩ := isSome_iff_exists.mp hrun
  exact ⟨g, hg, fun id => ((reachable_in_order (reachable_of_runs hg)).2.2.2.2 id).1⟩

end Mere.Kernel
