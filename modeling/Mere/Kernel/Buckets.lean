import Mere.Kernel.Loading

/-!
# Edge buckets

One edge from a node to another at most, and only where it carries something; in it no two
statements of one kind, predicate and scope.
-/

namespace Mere.Kernel

open SemanticStatement List Option

variable {P : Platform}

namespace EdgePayload

structure Sound (payload : EdgePayload) : Prop where
  distinct : (payload.semanticStatements.map key).Nodup
  cached : ∀ data, payload.semantic = some data → data = .of data.statements

structure WellFormed (payload : EdgePayload) : Prop extends payload.Sound where
  something : payload.isEmpty = false

end EdgePayload

namespace SemanticData

structure Sound (data : SemanticData) : Prop where
  distinct : (data.statements.map key).Nodup
  cached : data = .of data.statements

theorem sound_empty : Sound {} := ⟨nodup_nil, rfl⟩

theorem sound_of {statements : List SemanticStatement}
    (h : (statements.map key).Nodup) : (SemanticData.of statements).Sound :=
  ⟨h, rfl⟩

variable {data : SemanticData}

theorem Sound.assertStatement (h : data.Sound) (spec : SemanticStatementSpec)
    (mint : Str) : (data.assertStatement spec mint).1.Sound := by
  unfold SemanticData.assertStatement
  split
  · split
    · exact h
    · refine sound_of ?_
      rw [editFirst_map _ (refresh spec) _ _ fun _ => rfl]
      exact h.distinct
  · rename_i hfind
    refine sound_of ?_
    rw [map_append, nodup_append]
    refine ⟨h.distinct, nodup_singleton _, ?_⟩
    rintro key hkey _ hmem rfl
    obtain ⟨s, hs, rfl⟩ := mem_map.mp hkey
    have hne := find?_eq_none.mp hfind s hs
    exact hne (beq_iff_eq.mpr (mem_singleton.mp hmem))

theorem Sound.dropStatements (h : data.Sound) (p : SemanticStatement → Bool) :
    (data.dropStatements p).1.Sound := by
  unfold SemanticData.dropStatements
  split
  · exact sound_of (h.distinct.sublist (filter_sublist.map _))
  · exact h

/-- A statement with its own id: as it was where the id is known, and told apart from the others
    exactly where nothing says the same. -/
theorem Sound.pushPersistedStatement_iff (h : data.Sound)
    (statement : SemanticStatement) : (data.pushPersistedStatement statement).1.Sound ↔
      (∃ s ∈ data.statements, s.statementId = statement.statementId) ∨
        statement.key ∉ data.statements.map key := by
  have hknown : data.statements.any (fun s => s.statementId == statement.statementId) = true ↔
      ∃ s ∈ data.statements, s.statementId = statement.statementId := by simp
  unfold SemanticData.pushPersistedStatement
  split
  · rename_i hid
    exact iff_of_true h (.inl (hknown.mp hid))
  · rename_i hid
    have hnew : ¬ ∃ s ∈ data.statements, s.statementId = statement.statementId := fun hex =>
      hid (hknown.mpr hex)
    constructor
    · intro hsound
      have hnodup : ((data.statements ++ [statement]).map key).Nodup :=
        hsound.distinct
      rw [map_append, nodup_append] at hnodup
      exact .inr fun hmem => hnodup.2.2 _ hmem _ mem_cons_self rfl
    · rintro (hex | hkey)
      · exact absurd hex hnew
      · refine sound_of ?_
        rw [map_append, nodup_append]
        refine ⟨h.distinct, nodup_singleton _, ?_⟩
        rintro key hmem _ hsingle rfl
        rw [mem_singleton.mp hsingle] at hmem
        exact hkey hmem

theorem pushPersistedStatement_ne_nil (data : SemanticData) (statement : SemanticStatement) :
    (data.pushPersistedStatement statement).1.statements ≠ [] := by
  unfold pushPersistedStatement
  split
  · rename_i hid
    intro hnil
    rw [hnil] at hid
    cases hid
  · exact append_ne_nil_of_right_ne_nil _ (cons_ne_nil _ _)

end SemanticData

namespace EdgePayload

variable {payload : EdgePayload}

theorem sound_iff : payload.Sound ↔ ∀ data, payload.semantic = some data → data.Sound := by
  constructor
  · intro h data hdata
    refine ⟨?_, h.cached data hdata⟩
    have hdistinct := h.distinct
    unfold semanticStatements at hdistinct
    rw [hdata] at hdistinct
    exact hdistinct
  · intro h
    refine ⟨?_, fun data hdata => (h data hdata).cached⟩
    unfold semanticStatements
    cases hdata : payload.semantic with
    | none => exact nodup_nil
    | some data => exact (h data hdata).distinct

theorem sound_empty : Sound {} := sound_iff.mpr nofun

theorem Sound.getD (h : payload.Sound) : (payload.semantic.getD {}).Sound := by
  cases hdata : payload.semantic with
  | none => exact SemanticData.sound_empty
  | some data => exact sound_iff.mp h data hdata

theorem Move.sound {mint : Str} {new : EdgePayload} (hmove : Move mint payload new)
    (h : payload.Sound) : new.Sound := by
  rw [sound_iff]
  intro data hdata
  cases hmove with
  | statement spec =>
    obtain rfl := some.inj hdata
    exact h.getD.assertStatement spec mint
  | drop p =>
    unfold shrinkSemantic at hdata
    split at hdata
    · exact sound_iff.mp h data hdata
    · rename_i old hold
      have hdrop := (sound_iff.mp h old hold).dropStatements p
      split at hdata
      · split at hdata
        · cases hdata
        · obtain rfl := some.inj hdata
          exact hdrop
      · exact sound_iff.mp h data hdata
  | other hsame =>
    rw [hsame] at hdata
    exact sound_iff.mp h data hdata

/-! ## The predicate of all statements -/

def kindAndScope (s : SemanticStatement) : Option SemanticSubKind × GraphScope :=
  (s.recognizedSubKind, s.graphScope)

def recognized (payload : EdgePayload) : List SemanticStatement :=
  payload.semanticStatements.filter (fun s => s.recognizedSubKind.isSome)

def Rewritable (payload : EdgePayload) : Option Str → Prop
  | some _ => (payload.semanticStatements.map kindAndScope).Nodup
  | none => (payload.recognized.map kindAndScope).Nodup ∧
      (payload.semantic = none ∨ payload.recognized ≠ [] ∨
        isEmpty { payload with semantic := none } = false)

theorem nodup_rewritten (statements : List SemanticStatement) (predicate : Str) :
    ((statements.map (fun s => { s with predicate })).map key).Nodup ↔
      (statements.map kindAndScope).Nodup := by
  have hkeys : (statements.map (fun s => { s with predicate })).map key =
      (statements.map kindAndScope).map (fun k => (k.1, predicate, k.2)) := by
    rw [List.map_map, List.map_map]
    rfl
  rw [hkeys, nodup_map_iff]
  rintro ⟨kind, scope⟩ ⟨kind', scope'⟩ h
  cases h
  rfl

variable {statements : List SemanticStatement}

theorem nodup_canonical
    (h : ∀ s ∈ statements, s.recognizedSubKind.isSome) :
    ((statements.map SemanticData.canonical).map key).Nodup ↔
      (statements.map kindAndScope).Nodup := by
  have hkeys : (statements.map SemanticData.canonical).map key =
      (statements.map kindAndScope).map (fun k => (k.1, k.1.elim [] predicateIri, k.2)) := by
    rw [List.map_map, List.map_map]
    refine map_congr_left fun s hs => ?_
    obtain ⟨kind, hkind⟩ := isSome_iff_exists.mp (h s hs)
    simp [SemanticData.canonical, key, kindAndScope, hkind]
  rw [hkeys, nodup_map_iff]
  rintro ⟨kind, scope⟩ ⟨kind', scope'⟩ h
  cases h
  rfl

theorem wellFormed_of_statements (hne : statements ≠ []) :
    WellFormed { payload with semantic := some (.of statements) } ↔
      (statements.map key).Nodup := by
  constructor
  · exact fun h => h.distinct
  · intro h
    refine ⟨sound_iff.mpr fun data hdata => ?_, ?_⟩
    · obtain rfl := some.inj hdata
      exact SemanticData.sound_of h
    · exact isEmpty_of_semantic (hasSemantic_of_statements rfl hne)

theorem wellFormed_of_statements_or_none (statements : List SemanticStatement) :
    WellFormed { payload with
      semantic := if (SemanticData.of statements).statements.isEmpty then none
        else some (.of statements) } ↔
      (statements.map key).Nodup ∧
        (statements ≠ [] ∨ isEmpty { payload with semantic := none } = false) := by
  cases statements with
  | nil =>
    have hsound : Sound { payload with semantic := none } := sound_iff.mpr nofun
    refine ⟨fun hwf => ⟨nodup_nil, .inr hwf.something⟩, ?_⟩
    rintro ⟨_, hne | hrest⟩
    · exact absurd rfl hne
    · exact ⟨hsound, hrest⟩
  | cons s rest =>
    refine (wellFormed_of_statements (cons_ne_nil s rest)).trans ?_
    exact ⟨fun h => ⟨h, .inl (cons_ne_nil s rest)⟩, fun h => h.1⟩

theorem setStatementPredicate_some (data : SemanticData) (predicate mint : Str) :
    ∃ statements, data.setStatementPredicate (some predicate) mint = .of statements ∧
      statements ≠ [] ∧ ((statements.map key).Nodup ↔
        (data.statements.map kindAndScope).Nodup) := by
  unfold SemanticData.setStatementPredicate
  dsimp only
  split
  · rename_i hnil
    refine ⟨_, rfl, cons_ne_nil _ _, ?_⟩
    rw [hnil]
    exact iff_of_true (nodup_singleton _) nodup_nil
  · rename_i hcons
    refine ⟨_, rfl, fun hnil => hcons (map_eq_nil_iff.mp hnil), ?_⟩
    exact nodup_rewritten data.statements predicate

theorem wellFormed_setSemanticPredicate_some (payload : EdgePayload) (predicate mint : Str) :
    (payload.setSemanticPredicate (some predicate) mint).WellFormed ↔
      (payload.semanticStatements.map kindAndScope).Nodup := by
  unfold setSemanticPredicate semanticStatements
  cases payload.semantic with
  | none =>
    obtain ⟨statements, heq, hne, hiff⟩ := setStatementPredicate_some {} predicate mint
    dsimp only
    rw [heq]
    exact (wellFormed_of_statements hne).trans hiff
  | some data =>
    obtain ⟨statements, heq, hne, hiff⟩ := setStatementPredicate_some data predicate mint
    dsimp only
    rw [heq]
    refine (wellFormed_of_statements_or_none statements).trans ?_
    exact ⟨fun h => hiff.mp h.1, fun h => ⟨hiff.mpr h, .inl hne⟩⟩

theorem wellFormed_setSemanticPredicate_none (h : payload.WellFormed) (mint : Str) :
    (payload.setSemanticPredicate none mint).WellFormed ↔ payload.Rewritable none := by
  have hrecognized : ∀ s ∈ payload.recognized, s.recognizedSubKind.isSome := fun s hs =>
    (mem_filter.mp hs).2
  unfold setSemanticPredicate Rewritable
  cases hdata : payload.semantic with
  | none =>
    have hnone : payload.recognized = [] := by
      unfold recognized semanticStatements
      rw [hdata]
      rfl
    refine iff_of_true h ⟨?_, .inl rfl⟩
    rw [hnone]
    exact nodup_nil
  | some data =>
    have hkept : data.setStatementPredicate none mint =
        .of (payload.recognized.map SemanticData.canonical) := by
      unfold recognized semanticStatements
      rw [hdata]
      rfl
    dsimp only
    rw [hkept]
    refine (wellFormed_of_statements_or_none _).trans ?_
    rw [nodup_canonical hrecognized, ne_eq, map_eq_nil_iff]
    simp only [reduceCtorEq, false_or, ne_eq]

theorem wellFormed_setSemanticPredicate (h : payload.WellFormed) (predicate : Option Str)
    (mint : Str) :
    (payload.setSemanticPredicate predicate mint).WellFormed ↔ payload.Rewritable predicate := by
  cases predicate with
  | none => exact wellFormed_setSemanticPredicate_none h mint
  | some predicate => exact wellFormed_setSemanticPredicate_some payload predicate mint

end EdgePayload

/-! ## All buckets of a graph -/

namespace Graph

structure Buckets (g : Graph P) : Prop where
  simple : ∀ key key' e e', g.inner.edge key = some e → g.inner.edge key' = some e' →
    e.source = e'.source → e.target = e'.target → key = key'
  payload : ∀ key e, g.inner.edge key = some e → e.weight.WellFormed

variable {g g' : Graph P}

variable (h : g.Buckets)
include h

theorem Buckets.toSimple : g.inner.Simple := ⟨h.simple⟩

omit h in
theorem buckets_iff : g.Buckets ↔
    g.inner.Simple ∧ ∀ s t w, g.inner.link s t = some w → w.WellFormed := by
  constructor
  · intro h
    refine ⟨h.toSimple, fun s t w hw => ?_⟩
    obtain ⟨key, hkey⟩ := h.toSimple.link_eq_some.mp hw
    exact h.payload key _ hkey
  · rintro ⟨hsimple, h⟩
    exact ⟨hsimple.unique, fun key e he => h e.source e.target e.weight
      (hsimple.link_eq_some.mpr ⟨key, he⟩)⟩

theorem Buckets.sound (s t : Nat) : (g.bucketOf s t).Sound := by
  unfold bucketOf
  cases hlink : g.inner.link s t with
  | none => exact EdgePayload.sound_empty
  | some w => exact ((buckets_iff.mp h).2 s t w hlink).toSound

theorem Buckets.of_edges (hedges : g'.inner.edges = g.inner.edges) :
    g'.Buckets := by
  constructor
  · intro key key' e e'
    unfold Chartulary.Graph.edge
    rw [hedges]
    exact h.simple key key' e e'
  · intro key e
    unfold Chartulary.Graph.edge
    rw [hedges]
    exact h.payload key e

theorem Buckets.relinks_iff {s t : Nat} {old new : EdgePayload} {inner : Inner}
    (hlink : Relinks g.inner s t old (some new) inner) :
    Graph.Buckets { g with inner } ↔ new.WellFormed := by
  have hnew : inner.link s t = some new := by
    rw [hlink.link h.toSimple, if_pos ⟨rfl, rfl⟩]
  rw [buckets_iff]
  constructor
  · rintro ⟨_, hall⟩
    exact hall s t new hnew
  · intro hwf
    refine ⟨hlink.simple h.toSimple, fun s' t' w hw => ?_⟩
    rw [hlink.link h.toSimple] at hw
    split at hw
    · obtain rfl := some.inj hw
      exact hwf
    · exact (buckets_iff.mp h).2 s' t' w hw

theorem Buckets.toPayloads : g.Payloads EdgePayload.WellFormed :=
  ⟨h.toSimple, (buckets_iff.mp h).2⟩

omit h in
theorem Write.buckets {mint : Str} (hwrite : Write mint g g') (h : g.Buckets) : g'.Buckets := by
  have hwritten := h.toPayloads.write EdgePayload.sound_empty (fun _ hw => hw.toSound)
    (fun _ _ hold hmove hnew => ⟨hmove.sound hold, hnew⟩) hwrite
  exact buckets_iff.mpr ⟨hwritten.simple, hwritten.payload⟩

omit h in
theorem Writes.buckets {mint : Str} (hwrites : Writes mint g g') (h : g.Buckets) : g'.Buckets := by
  induction hwrites with
  | refl => exact h
  | tail _ hwrite ih => exact hwrite.buckets ih

omit h in
theorem rebuildDerivedContainmentRelations_writes (g : Graph P) :
    Writes [] g g.rebuildDerivedContainmentRelations := by
  have hclear : ∀ (keys : List Nat) (inner : Inner), Writes [] g { g with inner } →
      Writes [] g { g with inner := keys.foldl clearDerived inner } := by
    intro keys
    induction keys with
    | nil => exact fun inner h => h
    | cons key keys ih =>
      intro inner h
      refine ih _ (h.trans ?_)
      exact shrinkEdge_writes { g with inner } key fun old => .other rfl
  have hassert : ∀ (subKind : ContainmentSubKind) (edges : List (Nat × Nat)) (g : Graph P),
      Writes [] g (assertContainment subKind g edges) := by
    intro subKind edges
    induction edges with
    | nil => exact fun g => .refl
    | cons p edges ih => exact fun g => (g.assertRelation_writes p.1 p.2 _).trans (ih _)
  exact (hclear _ g.inner .refl).trans ((hassert .urlPath _ _).trans (hassert .domain _ _))

theorem Buckets.setEdgeSemanticPredicate_iff (edge : Nat) (predicate : Option Str)
    (mint : Str) : (g.setEdgeSemanticPredicate edge predicate mint).1.Buckets ↔
      ∀ e, g.inner.edge edge = some e → e.weight.Rewritable predicate := by
  unfold setEdgeSemanticPredicate
  cases hedge : g.inner.edge edge with
  | none => exact iff_of_true h nofun
  | some e =>
    refine (h.relinks_iff (.setWeight hedge _)).trans ?_
    refine (EdgePayload.wellFormed_setSemanticPredicate (h.payload edge _ hedge) _ _).trans ?_
    exact ⟨fun hrewritable _ he => some.inj he ▸ hrewritable, fun hall => hall _ rfl⟩

omit h in
theorem apply_rewritten {tick : Tick} {delta : GraphDelta P} {edge : Nat} {predicate : Option Str}
    (h : delta.rewritten g = some (edge, predicate)) :
    g.apply tick delta = some (g.setEdgeSemanticPredicate edge predicate tick.statementId).1 := by
  unfold GraphDelta.rewritten at h
  split at h
  · obtain ⟨rfl, rfl⟩ := some.inj h
    rfl
  · obtain ⟨found, hfound, hpair⟩ := map_eq_some_iff.mp h
    obtain ⟨rfl, rfl⟩ := hpair
    dsimp only [Graph.apply, applyGraphDelta, applyReplay]
    rw [hfound]
    rfl
  · cases h

theorem Buckets.pushPersisted_iff {s t key : Nat} {statement : SemanticStatement} {changed : Bool}
    (hwrite : g.assertPersistedSemanticStatement s t statement = some (g', key, changed)) :
    g'.Buckets ↔
      (∃ known ∈ (g.bucketOf s t).semanticStatements, known.statementId = statement.statementId) ∨
        statement.key ∉ (g.bucketOf s t).semanticStatements.map SemanticStatement.key := by
  obtain ⟨inner, old, rfl, _, hlink⟩ := writeBucket_relinks hwrite
  have hold : g.bucketOf s t = old := hlink.old h.toSimple
  have hsound : (old.semantic.getD {}).Sound := hold ▸ (h.sound s t).getD
  have hstatements : old.semanticStatements = (old.semantic.getD {}).statements := by
    unfold EdgePayload.semanticStatements
    cases old.semantic <;> rfl
  rw [hold, hstatements, ← hsound.pushPersistedStatement_iff, h.relinks_iff hlink]
  constructor
  · intro hwf
    exact EdgePayload.sound_iff.mp hwf.toSound _ rfl
  · intro hdata
    refine ⟨EdgePayload.sound_iff.mpr fun data hsome => ?_, ?_⟩
    · obtain rfl := some.inj hsome
      exact hdata
    · refine EdgePayload.isEmpty_of_semantic (EdgePayload.hasSemantic_of_statements rfl ?_)
      exact SemanticData.pushPersistedStatement_ne_nil _ statement

theorem Buckets.bucketOf_of_dead {s t : Nat}
    (hdead : (g.node s).isNone ∨ (g.node t).isNone) : g.bucketOf s t = {} := by
  unfold bucketOf
  cases hlink : g.inner.link s t with
  | none => rfl
  | some w => exact absurd hdead (live_iff.mpr (Chartulary.Graph.link_ends h.toSimple hlink))

end Graph

/-! ## Runs -/

/-- A delta, one call of the statement write API, or containment derived anew. -/
inductive BucketStep (P : Platform)
  | delta (tick : Tick) (delta : GraphDelta P)
  | assertRelation (source target : Nat) (subKind : SemanticSubKind) (label : Option Str)
      (graphScope : GraphScope) (mint : Str)
  | assertPredicate (source target : Nat) (predicate : Str) (graphScope : GraphScope) (mint : Str)
  | assertStatement (source target : Nat) (spec : SemanticStatementSpec) (mint : Str)
  | assertPersisted (source target : Nat) (statement : SemanticStatement)
  | retract (source target : Nat) (statementId : Str)
  | derive

namespace BucketStep

def run (g : Graph P) : BucketStep P → Option (Graph P)
  | delta tick d => g.apply tick d
  | assertRelation s t subKind label graphScope mint =>
    some (g.assertSemanticRelationInScope s t subKind label graphScope mint).1
  | assertPredicate s t predicate graphScope mint =>
    some (g.assertSemanticPredicateInScope s t predicate graphScope mint).1
  | assertStatement s t spec mint =>
    some (((g.assertSemanticStatement s t spec mint).map Prod.fst).getD g)
  | assertPersisted s t statement =>
    some (((g.assertPersistedSemanticStatement s t statement).map Prod.fst).getD g)
  | retract s t statementId => some (g.retractSemanticStatement s t statementId).1
  | derive => some g.rebuildDerivedContainmentRelations

/-- An edge that gets a predicate, or loses it, has no two statements that only the predicate
    tells apart, and keeps something; a statement with an id of its own does not repeat another. -/
def KeepsBuckets (g : Graph P) : BucketStep P → Prop
  | delta _ d => ∀ edge predicate, d.rewritten g = some (edge, predicate) →
      ∀ e, g.inner.edge edge = some e → e.weight.Rewritable predicate
  | assertPersisted s t statement =>
      (∃ known ∈ (g.bucketOf s t).semanticStatements, known.statementId = statement.statementId) ∨
        statement.key ∉ (g.bucketOf s t).semanticStatements.map key
  | _ => True

end BucketStep

namespace Graph

variable {g g' : Graph P}

theorem Buckets.apply_iff (h : g.Buckets) {tick : Tick} {delta : GraphDelta P}
    (happly : g.apply tick delta = some g') : g'.Buckets ↔
      ∀ edge predicate, delta.rewritten g = some (edge, predicate) →
        ∀ e, g.inner.edge edge = some e → e.weight.Rewritable predicate := by
  cases hrewritten : delta.rewritten g with
  | some found =>
    obtain ⟨edge, predicate⟩ := found
    obtain rfl := some.inj ((apply_rewritten hrewritten).symm.trans happly)
    refine (h.setEdgeSemanticPredicate_iff edge predicate _).trans ⟨?_, fun hall => hall _ _ rfl⟩
    intro hall edge' predicate' hsome
    obtain ⟨rfl, rfl⟩ := some.inj hsome
    exact hall
  | none =>
    refine iff_of_true ?_ nofun
    cases apply_change happly with
    | writes hwrites => exact Writes.buckets hwrites h
    | @overwrite id url _ _ =>
      obtain ⟨store, hadd⟩ := g.addNodeWithId_eq id url tick.nowMs
      rw [hadd]
      exact h.of_edges (Chartulary.Graph.edges_insert _ _)
    | predicate hsome =>
      rw [hrewritten] at hsome
      cases hsome

theorem Buckets.step_iff (h : g.Buckets) {step : BucketStep P} (hrun : step.run g = some g') :
    g'.Buckets ↔ step.KeepsBuckets g := by
  cases step with
  | delta tick d => exact h.apply_iff hrun
  | assertRelation s t subKind label graphScope mint =>
    obtain rfl := some.inj hrun
    have hwrites : Writes mint g _ :=
      g.assertSemanticRelationInScope_writes s t subKind label graphScope
    exact iff_of_true (hwrites.buckets h) trivial
  | assertPredicate s t predicate graphScope mint =>
    obtain rfl := some.inj hrun
    have hwrites : Writes mint g _ :=
      g.assertSemanticPredicateInScope_writes s t predicate graphScope
    exact iff_of_true (hwrites.buckets h) trivial
  | assertStatement s t spec mint =>
    obtain rfl := some.inj hrun
    refine iff_of_true ?_ trivial
    cases hwrite : g.assertSemanticStatement s t spec mint with
    | none => exact h
    | some written => exact (assertSemanticStatement_writes hwrite).buckets h
  | assertPersisted s t statement =>
    obtain rfl := some.inj hrun
    cases hwrite : g.assertPersistedSemanticStatement s t statement with
    | some written => exact h.pushPersisted_iff hwrite
    | none =>
      have hdead : (g.node s).isNone ∨ (g.node t).isNone := by
        by_contra hlive
        obtain ⟨hs, ht⟩ := live_iff.mp hlive
        obtain ⟨_, _, _, heq, _⟩ := g.writeBucket_of_live hs ht fun payload =>
          payload.pushPersistedSemanticStatement statement
        exact nomatch heq.symm.trans hwrite
      refine iff_of_true h (.inr ?_)
      rw [h.bucketOf_of_dead hdead]
      exact not_mem_nil
  | retract s t statementId =>
    obtain rfl := some.inj hrun
    have hwrites : Writes [] g _ := g.retractSemanticStatement_writes s t statementId
    exact iff_of_true (hwrites.buckets h) trivial
  | derive =>
    obtain rfl := some.inj hrun
    exact iff_of_true (g.rebuildDerivedContainmentRelations_writes.buckets h) trivial

theorem buckets_empty : Buckets ({} : Graph P) := by
  constructor
  · intro key key' e e' he
    exact nomatch (Arena.get_empty key).symm.trans he
  · intro key e he
    exact nomatch (Arena.get_empty key).symm.trans he

end Graph

/-- Buckets are well formed as long as the steps are ones that keep them so, and a step keeps
    them so exactly where the condition holds. -/
theorem buckets_step_iff {g : Graph P} (h : Reach {} BucketStep.run BucketStep.KeepsBuckets g) :
    g.Buckets ∧ ∀ step g', BucketStep.run g step = some g' →
      (g'.Buckets ↔ BucketStep.KeepsBuckets g step) := by
  have hbuckets : g.Buckets := h.invariant Graph.buckets_empty
    fun g g' step hg hkeeps hrun => (hg.step_iff hrun).mpr hkeeps
  exact ⟨hbuckets, fun step g' hrun => hbuckets.step_iff hrun⟩

def pairSteps : List (BucketStep plainPlatform) :=
  [.delta ⟨0, 0, 0, 0, [1]⟩ (.addNode (some 1) [97]),
    .delta ⟨0, 0, 0, 0, [2]⟩ (.addNode (some 2) [98]),
    .delta ⟨0, 0, 0, 0, [3]⟩ (.assertSemanticPredicate 0 1 [112])]

/-- A run in which an edge gets a predicate. -/
theorem buckets_step_iff_pair : ∃ g : Graph plainPlatform,
    runs BucketStep.run {} pairSteps = some g ∧ g.Buckets := by
  have hsome : (runs BucketStep.run {} pairSteps).isSome = true := by decide +kernel
  obtain ⟨g, hg⟩ := isSome_iff_exists.mp hsome
  have hall : ∀ step ∈ pairSteps, ∀ g, BucketStep.KeepsBuckets g step := by
    intro step hstep g
    simp only [pairSteps, mem_cons, not_mem_nil, or_false] at hstep
    rcases hstep with rfl | rfl | rfl <;> exact nofun
  exact ⟨g, hg, (buckets_step_iff (Reach.start.runs hg hall)).1⟩

theorem not_buckets {g : Graph P} {key : Nat} {empty distinct : Bool}
    (h : (g.inner.edge key).map (fun e => (e.weight.isEmpty,
      decide (e.weight.semanticStatements.map SemanticStatement.key).Nodup)) = some (empty, distinct))
    (hbad : empty = true ∨ distinct = false) : ¬ g.Buckets := by
  intro hbuckets
  obtain ⟨e, he, hpair⟩ := map_eq_some_iff.mp h
  obtain ⟨rfl, rfl⟩ := Prod.mk.inj hpair
  have hwf := hbuckets.payload key e he
  rcases hbad with hempty | hrepeated
  · rw [hwf.something] at hempty
    cases hempty
  · exact of_decide_eq_false hrepeated hwf.distinct

/-- The predicate taken from an edge that has nothing else; one predicate set on two statements;
    a statement that comes with another id. -/
theorem buckets_broken :
    (∃ g : Graph plainPlatform, runs BucketStep.run {} (pairSteps ++
      [.delta ⟨0, 0, 0, 0, [4]⟩ (.setEdgeSemanticPredicate 0 none)]) = some g ∧ ¬ g.Buckets) ∧
    (∃ g : Graph plainPlatform, runs BucketStep.run {} (pairSteps ++
      [.delta ⟨0, 0, 0, 0, [4]⟩ (.assertSemanticPredicate 0 1 [113]),
        .delta ⟨0, 0, 0, 0, [5]⟩ (.setEdgeSemanticPredicate 0 (some [114]))]) = some g ∧
      ¬ g.Buckets) ∧
    ∃ g : Graph plainPlatform, runs BucketStep.run {} (pairSteps ++
      [.assertPersisted 0 1 ⟨[4], [112], none, none, .default, none, none⟩]) = some g ∧
      ¬ g.Buckets := by
  have hbroken : ∀ (steps : List (BucketStep plainPlatform)) (empty distinct : Bool),
      (runs BucketStep.run {} steps).bind (fun g => (g.inner.edge 0).map fun e =>
        (e.weight.isEmpty, decide (e.weight.semanticStatements.map key).Nodup)) =
          some (empty, distinct) → empty = true ∨ distinct = false →
      ∃ g, runs BucketStep.run {} steps = some g ∧ ¬ g.Buckets := by
    intro steps empty distinct h hbad
    obtain ⟨g, hg, hedge⟩ := bind_eq_some_iff.mp h
    exact ⟨g, hg, not_buckets hedge hbad⟩
  refine ⟨hbroken _ true true (by decide +kernel) (.inl rfl), ?_, ?_⟩
  · exact hbroken _ false false (by decide +kernel) (.inr rfl)
  · exact hbroken _ false false (by decide +kernel) (.inr rfl)

end Mere.Kernel
