import Mere.Chartulary.Commit
import Mere.Servitor.Capability

/-!
# The gate

From `crates/servitor/src/gate.rs` and `deadband.rs`.
-/

namespace Mere.Servitor

open Chartulary Personae List Option

/-! ## Deadbands -/

/-- What `Deadband::new` lets through. -/
structure Deadband where
  minimumChange : Nat
  minimumIntervalMs : Nat
  change_pos : 0 < minimumChange
  interval_pos : 0 < minimumIntervalMs
  deriving DecidableEq

structure Actuation where
  output : Int
  atMs : Nat
  deriving DecidableEq

structure ChangeRefusal where
  minimum : Nat
  actual : Nat
  deriving DecidableEq

structure IntervalRefusal where
  minimumMs : Nat
  elapsedMs : Nat
  deriving DecidableEq

structure DeadbandRefusal where
  subject : Subject
  change : Option ChangeRefusal
  interval : Option IntervalRefusal
  deriving DecidableEq

structure DeadbandEntry where
  subject : Subject
  deadband : Deadband
  accepted : Option Actuation
  deriving DecidableEq

structure DeadbandAdmission where
  subject : Subject
  deadband : Option Deadband
  actuation : Actuation
  deriving DecidableEq

structure DeadbandTable where
  entries : List DeadbandEntry := []
  deriving DecidableEq

namespace DeadbandTable

def absoluteChange (before after : Int) : Nat := min (after - before).natAbs u64Max

def check (t : DeadbandTable) (subject : Subject) (actuation : Actuation) :
    Except DeadbandRefusal DeadbandAdmission :=
  match t.entries.find? (·.subject == subject) with
  | none => .ok ⟨subject, none, actuation⟩
  | some entry =>
    match entry.accepted with
    | none => .ok ⟨subject, some entry.deadband, actuation⟩
    | some accepted =>
      let actual := absoluteChange accepted.output actuation.output
      let elapsed := actuation.atMs - accepted.atMs
      let change := if actual < entry.deadband.minimumChange then
        some ⟨entry.deadband.minimumChange, actual⟩ else none
      let interval := if elapsed < entry.deadband.minimumIntervalMs then
        some ⟨entry.deadband.minimumIntervalMs, elapsed⟩ else none
      if change.isSome || interval.isSome then .error ⟨subject, change, interval⟩
      else .ok ⟨subject, some entry.deadband, actuation⟩

/-- The first entry of the admission moves its baseline. -/
def recordIn (subject : Subject) (deadband : Deadband) (actuation : Actuation) :
    List DeadbandEntry → List DeadbandEntry
  | [] => []
  | entry :: entries =>
    if entry.subject = subject ∧ entry.deadband = deadband then
      { entry with accepted := some actuation } :: entries
    else entry :: recordIn subject deadband actuation entries

def record (t : DeadbandTable) (admission : DeadbandAdmission) : DeadbandTable :=
  match admission.deadband with
  | none => t
  | some deadband => ⟨recordIn admission.subject deadband admission.actuation t.entries⟩

end DeadbandTable

/-! ## What a spec touches -/

/-- `grant:`, where the gate keeps its projections. -/
def grantPrefix : Str := [103, 114, 97, 110, 116, 58]

def isProjection (node : Str) : Bool := grantPrefix.isPrefixOf node

section Touched

variable {Id N E Value : Type} [Identified N Id]

/-- A disconnect names an edge and touches no node. -/
def touchedNodes : EditSpec Id N E Value → List Id
  | .insertNode node => [Identified.id node]
  | .removeNode id => [id]
  | .connect source target _ => [source, target]
  | .disconnect _ => []
  | .derive node _ => [node]
  | .setFacet node _ _ => [node]
  | .removeFacet node _ => [node]

def touchedFacet : EditSpec Id N E Value → Option FacetId
  | .setFacet _ facet _ => some facet
  | .removeFacet _ facet => some facet
  | _ => none

end Touched

/-! ## Petitions -/

inductive GateError where
  | deadband (refusal : DeadbandRefusal)
  | unauthorized (path : Str)
  | outOfScope (node path : Str)
  | unauthorizedFacet (facet : FacetId)
  | touchesProjection (node : Str)
  | commit (refusal : CommitError Str)
  deriving DecidableEq

abbrev Authority := Subject → Cap → Mode → Bool

def ScopePath.text (path : ScopePath) : Str := [slash].intercalate path.segments

/-- A node id that is no scope is inside nothing. -/
def inside (claimed : ScopePath) (node : Str) : Bool :=
  (ScopePath.parse node).toOption.any claimed.coversScope

def writesFacet (covers : Authority) (subject : Subject) (facet : FacetId) : Bool :=
  (Cap.parseFacet facet).toOption.any (covers subject · .write)

def hexDigit (n : Nat) : UInt8 := if n < 10 then 48 + n.toUInt8 else 87 + n.toUInt8

def Subject.toHex (subject : Subject) : Str :=
  (List.range 64).map fun i => hexDigit (subject.val / 16 ^ (63 - i) % 16)

/-- `denizen:` and the first eight hex digits of the key. -/
def Subject.toAuthor (subject : Subject) : Author :=
  ⟨[100, 101, 110, 105, 122, 101, 110, 58] ++ (Subject.toHex subject).take 8⟩

abbrev Nested (E Value : Type) := GraphLog Str (Container Str) E Value

abbrev Specs (E Value : Type) := List (EditSpec Str (Container Str) E Value)

structure BehaviorPetition (E Value : Type) where
  claimed : ScopePath
  expected : Nat
  actuation : Actuation
  specs : Specs E Value

namespace Gate

variable {E Value : Type} (covers : Authority)

def validatePetition (subject : Subject) (claimed : ScopePath) (specs : Specs E Value) :
    Except GateError Unit :=
  match (specs.flatMap touchedNodes).find? isProjection with
  | some node => .error (.touchesProjection node)
  | none =>
    if !covers subject (.scope claimed) .write then .error (.unauthorized claimed.text)
    else match (specs.flatMap touchedNodes).find? (fun node => !inside claimed node) with
      | some node => .error (.outOfScope node claimed.text)
      | none =>
        match (specs.filterMap touchedFacet).find? (fun facet => !writesFacet covers subject facet) with
        | some facet => .error (.unauthorizedFacet facet)
        | none => .ok ()

def commit (nested : Nested E Value) (subject : Subject) (expected : Nat) (specs : Specs E Value) :
    Except GateError Committed × Nested E Value :=
  let result := nested.commitBatch (Subject.toAuthor subject) expected specs
  (result.1.mapError .commit, result.2)

def petition (nested : Nested E Value) (subject : Subject) (claimed : ScopePath) (expected : Nat)
    (specs : Specs E Value) : Except GateError Committed × Nested E Value :=
  match validatePetition covers subject claimed specs with
  | .error refusal => (.error refusal, nested)
  | .ok () => commit nested subject expected specs

/-- The baseline moves only where the commit landed. -/
def petitionBehavior (deadbands : DeadbandTable) (nested : Nested E Value) (subject : Subject)
    (behavior : BehaviorPetition E Value) :
    Except GateError Committed × DeadbandTable × Nested E Value :=
  match validatePetition covers subject behavior.claimed behavior.specs with
  | .error refusal => (.error refusal, deadbands, nested)
  | .ok () =>
    match deadbands.check subject behavior.actuation with
    | .error refusal => (.error (.deadband refusal), deadbands, nested)
    | .ok admission =>
      match commit nested subject behavior.expected behavior.specs with
      | (.error refusal, nested) => (.error refusal, deadbands, nested)
      | (.ok committed, nested) => (.ok committed, deadbands.record admission, nested)

end Gate

/-! ## What specs leave alone -/

section Frame

variable {Id N E Value : Type}

/-- All that is kept under one node id is as it was. -/
def SameNode (before after : Chartulary.View Id N E Value) (x : Id) : Prop :=
  after.nodes x = before.nodes x ∧ after.facets x = before.facets x ∧
    after.derivations x = before.derivations x

variable {x : Id} {spec : EditSpec Id N E Value} {specs : List (EditSpec Id N E Value)}
  {writer : WriterId} {next : Nat} {e : EdgeId} {edge : Id × Id × E}

theorem SameNode.trans {v₁ v₂ v₃ : Chartulary.View Id N E Value}
    (h : SameNode v₁ v₂ x) (h' : SameNode v₂ v₃ x) : SameNode v₁ v₃ x :=
  ⟨h'.1.trans h.1, h'.2.1.trans h.2.1, h'.2.2.trans h.2.2⟩

variable [DecidableEq Id] [Identified N Id] {v : Chartulary.View Id N E Value}

theorem sameNode_apply (writer : WriterId) (next : Nat)
    (h : x ∉ touchedNodes spec) : SameNode v (v.apply (spec.lower writer next)) x := by
  cases spec with
  | insertNode node =>
    have hx := ne_of_not_mem_cons h
    exact ⟨if_neg hx, rfl, rfl⟩
  | removeNode y =>
    have hx := ne_of_not_mem_cons h
    exact ⟨if_neg hx, funext fun _ => if_neg hx, if_neg hx⟩
  | connect source target edge => simp [SameNode, EditSpec.lower, View.apply_connect]
  | disconnect id => exact ⟨rfl, rfl, rfl⟩
  | derive y record =>
    have hx := ne_of_not_mem_cons h
    exact ⟨rfl, rfl, if_neg hx⟩
  | setFacet y facet value | removeFacet y facet =>
    have hx := ne_of_not_mem_cons h
    simp [SameNode, EditSpec.lower, View.apply_setFacet, View.apply_removeFacet, hx]

theorem sameNode_applyAll (writer : WriterId) (next : Nat) (h : x ∉ specs.flatMap touchedNodes) :
    SameNode v (v.applyAll (lower writer next specs)) x := by
  induction specs generalizing v next with
  | nil => exact ⟨rfl, rfl, rfl⟩
  | cons spec specs ih =>
    rw [flatMap_cons, mem_append, not_or] at h
    exact (sameNode_apply writer next h.1).trans (ih _ h.2)

theorem edges_apply_apart (haccepts : v.Accepts (spec.lower writer next))
    (hsource : edge.1 ∉ touchedNodes spec) (htarget : edge.2.1 ∉ touchedNodes spec) :
    (v.apply (spec.lower writer next)).edges e = some edge ↔
      v.edges e = some edge ∧ spec ≠ .disconnect e := by
  cases spec with
  | insertNode node | derive x record => exact ⟨fun h => ⟨h, nofun⟩, fun h => h.1⟩
  | removeNode x =>
    have hclear : View.clear x edge = true :=
      decide_eq_true ⟨ne_of_not_mem_cons hsource, ne_of_not_mem_cons htarget⟩
    change (v.edges e).filter (View.clear x) = some edge ↔ _
    rw [filter_eq_some_iff]
    exact ⟨fun h => ⟨h.1, nofun⟩, fun h => ⟨h.1, hclear⟩⟩
  | connect source target weight =>
    simp only [EditSpec.lower, View.apply_connect]
    split
    · rename_i hnew
      rw [hnew.1, haccepts]
      refine ⟨fun h => ?_, nofun⟩
      obtain rfl := some.inj h
      exact absurd mem_cons_self hsource
    · exact ⟨fun h => ⟨h, nofun⟩, fun h => h.1⟩
  | disconnect id =>
    change (if e = id then none else v.edges e) = some edge ↔ _
    split
    · rename_i hid
      exact ⟨nofun, fun h => absurd (hid ▸ rfl) h.2⟩
    · rename_i hid
      refine ⟨fun h => ⟨h, fun heq => hid ?_⟩, fun h => h.1⟩
      exact (EditSpec.disconnect.inj heq).symm
  | setFacet x facet value | removeFacet x facet =>
    simp only [EditSpec.lower, View.apply_setFacet, View.apply_removeFacet]
    exact ⟨fun h => ⟨h, nofun⟩, fun h => h.1⟩

theorem edges_applyAll_apart (hfresh : v.Fresh (lower writer next specs))
    (hsource : edge.1 ∉ specs.flatMap touchedNodes)
    (htarget : edge.2.1 ∉ specs.flatMap touchedNodes) :
    (v.applyAll (lower writer next specs)).edges e = some edge ↔
      v.edges e = some edge ∧ .disconnect e ∉ specs := by
  induction specs generalizing v next with
  | nil => exact ⟨fun h => ⟨h, not_mem_nil⟩, fun h => h.1⟩
  | cons spec specs ih =>
    rw [flatMap_cons, mem_append, not_or] at hsource htarget
    refine (ih hfresh.tail hsource.2 htarget.2).trans ?_
    rw [edges_apply_apart hfresh.head hsource.1 htarget.1, mem_cons, not_or, and_assoc]
    simp only [ne_comm, ne_eq]

end Frame

/-! ## What a petition leaves alone -/

namespace Gate

variable {E Value : Type} {covers : Authority} {nested : Nested E Value} {subject : Subject}
  {claimed : ScopePath} {specs : Specs E Value}

/-- Everything that is not inside the claimed scope is as it was. -/
structure Framed (claimed : ScopePath)
    (before after : Chartulary.View Str (Container Str) E Value) : Prop where
  nodes : ∀ x, inside claimed x = false ∨ isProjection x = true → SameNode before after x
  edges : ∀ e edge, inside claimed edge.1 = false → inside claimed edge.2.1 = false →
    (after.edges e = some edge ↔ before.edges e = some edge)

/-- Every live edge that the specs disconnect has an end inside the claimed scope. -/
def SeversInside (claimed : ScopePath) (before : Chartulary.View Str (Container Str) E Value)
    (specs : Specs E Value) : Prop :=
  ∀ e edge, .disconnect e ∈ specs → before.edges e = some edge →
    inside claimed edge.1 = true ∨ inside claimed edge.2.1 = true

/-- A refused petition changes nothing. An accepted one keeps what lies outside its scope, if
its disconnects do. -/
def Confines (claimed : ScopePath) (specs : Specs E Value) (nested : Nested E Value)
    (outcome : Except GateError Committed × Nested E Value) : Prop :=
  (∀ refusal, outcome.1 = .error refusal → outcome.2 = nested) ∧
    ∀ committed, outcome.1 = .ok committed →
      (Framed claimed nested.view outcome.2.view ↔ SeversInside claimed nested.view specs)

theorem validatePetition_ok (h : validatePetition covers subject claimed specs = .ok ()) :
    ∀ x ∈ specs.flatMap touchedNodes, isProjection x = false ∧ inside claimed x = true := by
  unfold validatePetition at h
  split at h
  · cases h
  rename_i hprojection
  split at h
  · cases h
  split at h
  · cases h
  rename_i hscope
  intro x hx
  have hnot := find?_eq_none.mp hprojection x hx
  have hin := find?_eq_none.mp hscope x hx
  exact ⟨by simpa using hnot, by simpa using hin⟩

theorem framed_iff (hsound : nested.Sound) (author : Author)
    (h : ∀ x ∈ specs.flatMap touchedNodes, isProjection x = false ∧ inside claimed x = true) :
    Framed claimed nested.view
        (nested.extended author (lower nested.writer nested.nextEdge specs)).view ↔
      SeversInside claimed nested.view specs := by
  have hfresh := hsound.fresh_view specs
  have hview : (nested.extended author (lower nested.writer nested.nextEdge specs)).view =
      nested.view.applyAll (lower nested.writer nested.nextEdge specs) :=
    (hsound.indexed.applyEdits hfresh).2
  have hedges (e : EdgeId) (edge : Str × Str × E) (hsource : inside claimed edge.1 = false)
      (htarget : inside claimed edge.2.1 = false) :
      (nested.view.applyAll (lower nested.writer nested.nextEdge specs)).edges e = some edge ↔
        nested.view.edges e = some edge ∧ .disconnect e ∉ specs := by
    refine edges_applyAll_apart hfresh (fun hmem => ?_) fun hmem => ?_
    · exact Bool.false_ne_true (hsource.symm.trans (h _ hmem).2)
    · exact Bool.false_ne_true (htarget.symm.trans (h _ hmem).2)
  rw [hview]
  constructor
  · intro hframed e edge hmem hlive
    by_contra hends
    rw [not_or, Bool.not_eq_true, Bool.not_eq_true] at hends
    have hkept := (hframed.edges e edge hends.1 hends.2).mpr hlive
    exact ((hedges e edge hends.1 hends.2).mp hkept).2 hmem
  · intro hsevers
    refine ⟨fun x hx => sameNode_applyAll _ _ fun hmem => ?_, fun e edge hsource htarget => ?_⟩
    · have := h x hmem
      rcases hx with hx | hx
      · exact Bool.false_ne_true (hx.symm.trans this.2)
      · exact Bool.false_ne_true (this.1.symm.trans hx)
    · rw [hedges e edge hsource htarget]
      refine ⟨fun hlive => hlive.1, fun hlive => ⟨hlive, fun hmem => ?_⟩⟩
      rcases hsevers e edge hmem hlive with hin | hin
      · exact Bool.false_ne_true (hsource.symm.trans hin)
      · exact Bool.false_ne_true (htarget.symm.trans hin)

theorem confines_commit (hsound : nested.Sound) (subject : Subject) (expected : Nat)
    (h : ∀ x ∈ specs.flatMap touchedNodes, isProjection x = false ∧ inside claimed x = true) :
    Confines claimed specs nested (commit nested subject expected specs) := by
  unfold commit
  rcases GraphLog.commitBatch_cases (g := nested) (Subject.toAuthor subject) expected specs with
    ⟨refusal, heq⟩ | ⟨_, heq⟩
  · rw [heq]
    exact ⟨fun _ _ => rfl, nofun⟩
  · rw [heq]
    exact ⟨nofun, fun _ _ => framed_iff hsound _ h⟩

/-- The two ways into the graph, over every batch of specs. -/
theorem petition_confines (covers : Authority) (nested : Nested E Value) (hsound : nested.Sound)
    (subject : Subject) :
    (∀ claimed expected specs,
      Confines claimed specs nested (petition covers nested subject claimed expected specs)) ∧
    ∀ deadbands behavior,
      Confines behavior.claimed behavior.specs nested
        ((petitionBehavior covers deadbands nested subject behavior).1,
          (petitionBehavior covers deadbands nested subject behavior).2.2) := by
  constructor
  · intro claimed expected specs
    unfold petition
    split
    · exact ⟨fun _ _ => rfl, nofun⟩
    · rename_i hvalid
      exact confines_commit hsound subject expected (validatePetition_ok hvalid)
  · intro deadbands behavior
    unfold petitionBehavior
    split
    · exact ⟨fun _ _ => rfl, nofun⟩
    rename_i hvalid
    split
    · exact ⟨fun _ _ => rfl, nofun⟩
    have hcommit := confines_commit hsound subject behavior.expected (validatePetition_ok hvalid)
    split
    · rename_i hresult
      rw [hresult] at hcommit
      exact hcommit
    · rename_i hresult
      rw [hresult] at hcommit
      exact hcommit

/-! ## A disconnect out of scope -/

def trail : ScopePath where
  segments := [[116]]
  plain := by decide
  fit := by decide

def trailOnly : Authority := fun _ cap mode =>
  decide (cap = .scope trail) && decide (mode = .write)

def outland : Nested Unit Unit :=
  (GraphLog.commitBatch {} ⟨[]⟩ 0
    [.insertNode ⟨[97], []⟩, .insertNode ⟨[98], []⟩, .connect [97] [98] ()]).2

theorem petition_confines_outland :
    Framed trail outland.view
      (petition trailOnly outland 1 trail 1 [.insertNode ⟨[116, 47, 120], []⟩]).2.view := by
  have hsound : outland.Sound := GraphLog.sound_empty.commitBatch _ _ _
  refine (((petition_confines trailOnly outland hsound 1).1 trail 1 _).2 ⟨1, []⟩ (by decide)).mpr ?_
  intro e edge hmem
  simp at hmem

/-- Under a claim to `t`, the edge from `a` to `b` is gone. -/
theorem disconnect_escapes_scope :
    (petition trailOnly outland 1 trail 1 [.disconnect ⟨0, 0⟩]).1 = .ok ⟨1, []⟩ ∧
      inside trail [97] = false ∧ inside trail [98] = false ∧
      outland.view.edges ⟨0, 0⟩ = some ([97], [98], ()) ∧
      (petition trailOnly outland 1 trail 1 [.disconnect ⟨0, 0⟩]).2.view.edges ⟨0, 0⟩ = none := by
  decide

end Gate

/-! ## Deadbands over a run -/

def Deadband.Apart (deadband : Deadband) (a b : Actuation) : Prop :=
  deadband.minimumChange ≤ (b.output - a.output).natAbs ∧
    a.atMs + deadband.minimumIntervalMs ≤ b.atMs

namespace DeadbandTable

variable {t : DeadbandTable} {subject : Subject} {actuation : Actuation} {entry : DeadbandEntry}
  {entries : List DeadbandEntry} {admission : DeadbandAdmission}

theorem check_ok (hentry : t.entries.find? (·.subject == subject) = some entry)
    (h : t.check subject actuation = .ok admission) :
    admission = ⟨subject, some entry.deadband, actuation⟩ ∧
      ∀ accepted, entry.accepted = some accepted → entry.deadband.Apart accepted actuation := by
  unfold check at h
  rw [hentry] at h
  cases haccepted : entry.accepted with
  | none =>
    simp only [haccepted] at h
    exact ⟨(Except.ok.inj h).symm, nofun⟩
  | some accepted =>
    simp only [haccepted] at h
    rw [ite_eq_iff] at h
    obtain ⟨_, h⟩ | ⟨hpass, h⟩ := h
    · cases h
    refine ⟨(Except.ok.inj h).symm, ?_⟩
    rintro _ ⟨⟩
    have := entry.deadband.interval_pos
    simp [absoluteChange] at hpass
    unfold Deadband.Apart
    omega

theorem check_subject (h : t.check subject actuation = .ok admission) : admission.subject = subject := by
  cases hentry : t.entries.find? (·.subject == subject) with
  | none =>
    rw [check, hentry] at h
    rw [← Except.ok.inj h]
  | some entry => rw [(check_ok hentry h).1]

theorem find?_record_other (t : DeadbandTable) (hs : subject ≠ admission.subject) :
    (t.record admission).entries.find? (·.subject == subject) =
      t.entries.find? (·.subject == subject) := by
  rw [record]
  split
  · rfl
  rename_i deadband _
  induction t.entries with
  | nil => rfl
  | cons first entries ih =>
    rw [recordIn]
    split
    · rename_i hfirst
      simp [hfirst.1, hs.symm]
    · rw [find?_cons, find?_cons, ih]

theorem find?_recordIn_self (h : entries.find? (·.subject == subject) = some entry) :
    (recordIn subject entry.deadband actuation entries).find? (·.subject == subject) =
      some { entry with accepted := some actuation } := by
  induction entries with
  | nil => cases h
  | cons first entries ih =>
    by_cases hs : first.subject = subject
    · obtain rfl : first = entry := by simpa [hs] using h
      simp [recordIn, hs]
    · rw [find?_cons_of_neg (by simpa using hs)] at h
      simpa [recordIn, hs] using ih h

end DeadbandTable

namespace Gate

structure BehaviorCall (E Value : Type) where
  covers : Authority
  subject : Subject
  behavior : BehaviorPetition E Value

variable {E Value : Type} {state : DeadbandTable × Nested E Value}

def actuate (state : DeadbandTable × Nested E Value) (call : BehaviorCall E Value) :
    Except GateError Committed × DeadbandTable × Nested E Value :=
  petitionBehavior call.covers state.1 state.2 call.subject call.behavior

/-- What one behavior did over a run: the actuations of its petitions that went through. -/
def actuations (subject : Subject) :
    DeadbandTable × Nested E Value → List (BehaviorCall E Value) → List Actuation
  | _, [] => []
  | state, call :: calls =>
    if (actuate state call).1.isOk && call.subject == subject then
      call.behavior.actuation :: actuations subject (actuate state call).2 calls
    else actuations subject (actuate state call).2 calls

theorem actuate_cases (state : DeadbandTable × Nested E Value) (call : BehaviorCall E Value) :
    (∃ refusal, actuate state call = (.error refusal, state)) ∨
      ∃ admission committed nested, state.1.check call.subject call.behavior.actuation =
        .ok admission ∧ actuate state call = (.ok committed, state.1.record admission, nested) := by
  unfold actuate petitionBehavior commit
  split
  · exact .inl ⟨_, rfl⟩
  split
  · exact .inl ⟨_, rfl⟩
  rename_i admission hcheck
  rcases GraphLog.commitBatch_cases (g := state.2) (Subject.toAuthor call.subject)
    call.behavior.expected call.behavior.specs with ⟨refusal, heq⟩ | ⟨_, heq⟩
  · rw [heq]
    exact .inl ⟨_, rfl⟩
  · rw [heq]
    exact .inr ⟨admission, _, _, hcheck, rfl⟩

/-- From one actuation of a behavior to its next, whatever happens in between. -/
theorem actuations_apart (subject : Subject) (state : DeadbandTable × Nested E Value)
    (calls : List (BehaviorCall E Value)) {entry : DeadbandEntry}
    (h : state.1.entries.find? (·.subject == subject) = some entry) :
    (entry.accepted.toList ++ actuations subject state calls).IsChain entry.deadband.Apart ∧
      ∀ (state : DeadbandTable × Nested E Value) call refusal,
        (actuate state call).1 = .error refusal → (actuate state call).2 = state := by
  constructor
  · induction calls generalizing state entry with
    | nil => cases entry.accepted <;> simp [actuations]
    | cons call calls ih =>
      rw [actuations]
      rcases actuate_cases state call with ⟨refusal, heq⟩ | ⟨_, _, nested, hcheck, heq⟩
      · rw [heq]
        exact ih state h
      · rw [heq]
        by_cases hs : call.subject = subject
        · subst hs
          obtain ⟨rfl, hapart⟩ := DeadbandTable.check_ok h hcheck
          rw [if_pos (by simp [Except.isOk, Except.toBool])]
          have hrest := ih (state.1.record ⟨_, some entry.deadband, call.behavior.actuation⟩, nested)
            (DeadbandTable.find?_recordIn_self h)
          cases haccepted : entry.accepted with
          | none => exact hrest
          | some accepted => exact isChain_cons_cons.mpr ⟨hapart accepted haccepted, hrest⟩
        · rw [if_neg (by simpa using fun _ => hs)]
          refine ih _ ?_
          rw [← h]
          refine DeadbandTable.find?_record_other _ ?_
          rw [DeadbandTable.check_subject hcheck]
          exact Ne.symm hs
  · intro state call refusal hrefused
    rcases actuate_cases state call with ⟨_, heq⟩ | ⟨_, _, _, _, heq⟩
    · rw [heq]
    · rw [heq] at hrefused
      cases hrefused

def stepping : Deadband := ⟨2, 5, by decide, by decide⟩

/-- A move by 9 after 1 ms does not go through. -/
def steps : List (BehaviorCall Unit Unit) :=
  [(1, ⟨0, 10⟩), (2, ⟨9, 11⟩), (2, ⟨-2, 15⟩)].map fun (expected, actuation) =>
    ⟨trailOnly, 1, trail, expected, actuation, [.insertNode ⟨[116, 47, 120], []⟩]⟩

theorem actuations_apart_steps :
    actuations 1 (⟨[⟨1, stepping, none⟩]⟩, outland) steps = [⟨0, 10⟩, ⟨-2, 15⟩] ∧
      [⟨0, 10⟩, ⟨-2, 15⟩].IsChain stepping.Apart := by
  have hsteps : actuations 1 (⟨[⟨1, stepping, none⟩]⟩, outland) steps = [⟨0, 10⟩, ⟨-2, 15⟩] := by
    decide
  refine ⟨hsteps, ?_⟩
  exact (actuations_apart 1 (⟨[⟨1, stepping, none⟩]⟩, outland) steps rfl).1

end Gate

end Mere.Servitor
