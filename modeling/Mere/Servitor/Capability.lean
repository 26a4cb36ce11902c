import Mere.Personae.Certificate

/-!
# Structural capabilities

From `crates/capability/src/lib.rs`: closed powers, node scopes and facet namespaces.
-/

namespace Mere.Servitor

open List

open Personae (slash)

inductive CapError where
  | emptySegment | emptyFacetSegment | relativeSegment
  deriving DecidableEq

/-! ## Segments -/

theorem not_mem_of_mem_splitOn {a : UInt8} {text piece : Str} (h : piece ∈ text.splitOn a) :
    a ∉ piece := by
  unfold List.splitOn at h
  induction text generalizing piece with
  | nil =>
    rw [splitOnP_nil, mem_singleton] at h
    rw [h]
    exact not_mem_nil
  | cons b text ih =>
    rw [splitOnP_cons_eq_if_modifyHead] at h
    split at h
    · rcases mem_cons.mp h with rfl | h
      · exact not_mem_nil
      · exact ih h
    · rename_i hb
      cases hrest : text.splitOnP (· == a) with
      | nil => exact absurd hrest (splitOnP_ne_nil _ _)
      | cons first rest =>
        rw [hrest] at h
        rw [hrest] at ih
        rcases mem_cons.mp h with rfl | h
        · rw [mem_cons, not_or]
          exact ⟨fun heq => hb (beq_iff_eq.mpr heq.symm), ih mem_cons_self⟩
        · exact ih (mem_cons_of_mem _ h)

/-- Segments that hold no separator and that `refuse` lets pass. -/
structure Segments (separator : UInt8) (refuse : Str → Option CapError) where
  segments : List Str
  plain : ∀ s ∈ segments, separator ∉ s
  fit : ∀ s ∈ segments, refuse s = none
  deriving DecidableEq

namespace Segments

variable {separator : UInt8} {refuse : Str → Option CapError}

def root : Segments separator refuse where
  segments := []
  plain := by simp
  fit := by simp

def trim (separator : UInt8) (raw : Str) : Str :=
  if raw.getLast? = some separator then raw.dropLast else raw

/-- One trailing separator is ignored; the first segment refused says why. -/
def parse (raw : Str) : Except CapError (Segments separator refuse) :=
  if trim separator raw = [] then .ok root
  else
    let pieces := (trim separator raw).splitOn separator
    match h : pieces.findSome? refuse with
    | some error => .error error
    | none => .ok ⟨pieces, fun _ => not_mem_of_mem_splitOn, findSome?_eq_none_iff.mp h⟩

def covers (held want : Segments separator refuse) : Bool :=
  decide (held.segments.length ≤ want.segments.length) &&
    want.segments.take held.segments.length == held.segments

theorem ext_iff {a b : Segments separator refuse} : a = b ↔ a.segments = b.segments := by
  cases a; cases b; simp

theorem covers_iff {held want : Segments separator refuse} :
    held.covers want = true ↔ held.segments <+: want.segments := by
  rw [covers, Bool.and_eq_true, decide_eq_true_eq, beq_iff_eq, prefix_iff_eq_take]
  refine ⟨fun h => h.2.symm, fun h => ⟨?_, h.symm⟩⟩
  rw [h, length_take]
  exact min_le_right _ _

end Segments

def dot : UInt8 := 46

def refuseScopeSegment (segment : Str) : Option CapError :=
  if segment = [] then some .emptySegment
  else if segment = [dot] ∨ segment = [dot, dot] then some .relativeSegment
  else none

def refuseFacetSegment (segment : Str) : Option CapError :=
  if segment = [] then some .emptyFacetSegment else none

abbrev ScopePath := Segments slash refuseScopeSegment

abbrev FacetNamespace := Segments dot refuseFacetSegment

def ScopePath.parse (raw : Str) : Except CapError ScopePath := Segments.parse raw

def FacetNamespace.parse (raw : Str) : Except CapError FacetNamespace := Segments.parse raw

def ScopePath.coversScope (held want : ScopePath) : Bool := Segments.covers held want

/-! ## Capabilities -/

inductive Cap where
  | power (name : Str)
  | scope (path : ScopePath)
  | facet (space : FacetNamespace)
  deriving DecidableEq

def Cap.covers : Cap → Cap → Bool
  | .power held, .power want => held == want
  | .scope held, .scope want => held.coversScope want
  | .facet held, .facet want => Segments.covers held want
  | _, _ => false

def Cap.parseFacet (raw : Str) : Except CapError Cap := (FacetNamespace.parse raw).map .facet

inductive Mode where
  | read | write | delegate
  deriving DecidableEq

abbrev Subject := Bytes32

end Mere.Servitor
