import Mere.Base.Run
import Mere.Stickleback.Store

/-!
# What may happen to the indexes

All that the store's writes come to is a few moves. Two are not clean: a body-less entry that comes
back after its removal, and a pointer that goes by itself.
-/

namespace Mere.Stickleback

open List Option Relation

variable {E L : Type} {stages : DropRecord E → Prop} {place : LogKey L} {id : Bytes32}

abbrev Held (E L : Type) := View (Value E (L := L))

def Key.Aside : Key L → Prop
  | .log _ => False
  | .op _ => False
  | .payloadRef _ _ => False
  | _ => True

/-! ## Consistent indexes -/

section Consistent

variable (headerOf : Bytes32 → Header E)

/-- Pointers lead to the entries they are for, at the entries' own place, and payload references
where the pointers do. Each hash is of one header. -/
structure Sound (v : Held E L) : Prop where
  pointer : ∀ id place, v (.op id) = some place →
    ∃ header body, v (.log place) = some (header, body) ∧ header.hash = id
  placed : ∀ place header body, v (.log place) = some (header, body) →
    header.place place.logId = place
  known : ∀ place header body, v (.log place) = some (header, body) → headerOf header.hash = header
  ref : ∀ payload id place, v (.payloadRef payload id) = some place →
    v (.op id) = some place ∧ (headerOf id).payloadHash = some payload

/-- Pointers and entries are in bijection. -/
structure Indexed (v : Held E L) : Prop extends Sound headerOf v where
  pointed : ∀ place header body, v (.log place) = some (header, body) →
    v (.op header.hash) = some place

theorem indexed_empty : Indexed headerOf (fun _ => none : Held E L) where
  pointer := nofun
  placed := nofun
  known := nofun
  ref := nofun
  pointed := nofun

variable {headerOf} {v : Held E L}

theorem Sound.pointer_entry (h : Sound headerOf v)
    (hid : v (.op id) = some place) : ∃ body, v (.log place) = some (headerOf id, body) := by
  obtain ⟨header, body, hplace, rfl⟩ := h.pointer id place hid
  exact ⟨body, by rw [h.known place header body hplace, hplace]⟩

end Consistent

/-! ## Moves -/

def removal (place : LogKey L) (header : Header E) : List (Write E L) :=
  .delete (.op header.hash) :: forgetRef header.payloadHash header.hash ++ [.delete (.log place)]

/-- The removal of what leads to an entry, without the entry. -/
def unlinking (header : Header E) : List (Write E L) :=
  .delete (.op header.hash) :: forgetRef header.payloadHash header.hash

def stripping (place : LogKey L) (header : Header E) : List (Write E L) :=
  forgetRef header.payloadHash header.hash ++ [.put (.log place) (header, none)]

def insertion (place : LogKey L) (header : Header E) (body : Option Str) : List (Write E L) :=
  [.put (.log place) (header, body), .put (.op header.hash) place] ++
    header.payloadHash.toList.map fun payload => .put (.payloadRef payload header.hash) place

/-- What a call may do. -/
structure Scope (E L : Type) where
  inserts : LogKey L → Header E → Prop
  removes : LogKey L → Prop
  /-- Entries that may come back without their body. -/
  recalls : LogKey L → Header E → Prop
  /-- Headers whose pointer may go by itself. -/
  unlinks : Header E → Prop
  /-- Records that may be staged. -/
  stages : DropRecord E → Prop

structure Scope.Clean (scope : Scope E L) : Prop where
  recalls : ∀ place header, ¬scope.recalls place header
  unlinks : ∀ header, ¬scope.unlinks header

/-- The call is about no other headers than those that the hashes are of. -/
structure Scope.Known (headerOf : Bytes32 → Header E) (scope : Scope E L) : Prop where
  inserts : ∀ place header, scope.inserts place header → headerOf header.hash = header
  recalls : ∀ place header, scope.recalls place header → headerOf header.hash = header
  unlinks : ∀ header, scope.unlinks header → headerOf header.hash = header

def Scope.empty : Scope E L :=
  ⟨fun _ _ => False, fun _ => False, fun _ _ => False, fun _ => False, fun _ => False⟩

theorem Scope.known_empty {headerOf : Bytes32 → Header E} : (empty : Scope E L).Known headerOf :=
  ⟨fun _ _ => False.elim, fun _ _ => False.elim, fun _ => False.elim⟩

theorem Scope.clean_empty : (empty : Scope E L).Clean := ⟨fun _ _ => id, fun _ => id⟩

structure Scope.Within (scope scope' : Scope E L) : Prop where
  inserts : ∀ place header, scope.inserts place header → scope'.inserts place header
  removes : ∀ place, scope.removes place → scope'.removes place
  recalls : ∀ place header, scope.recalls place header → scope'.recalls place header
  unlinks : ∀ header, scope.unlinks header → scope'.unlinks header
  stages : ∀ record, scope.stages record → scope'.stages record

/-- A write that the indexes have no part in. -/
structure Beside (stages : DropRecord E → Prop) (w : Write E L) : Prop where
  key : w.key.Aside
  staged : ∀ drop i record, w = .put (.stage drop i) record → stages record

theorem Beside.mono {stages' : DropRecord E → Prop} {w : Write E L} (h : Beside stages w)
    (hle : ∀ record, stages record → stages' record) : Beside stages' w :=
  ⟨h.key, fun drop i record hw => hle record (h.staged drop i record hw)⟩

section Move

variable [DecidableEq L] (scope : Scope E L)

inductive Move : Held E L → Held E L → Prop
  | remove {v : Held E L} {place : LogKey L} {header : Header E} {body : Option Str} :
      scope.removes place → v (.log place) = some (header, body) →
      Move v (v.sets (removal place header))
  | strip {v : Held E L} {place : LogKey L} {header : Header E} {body : Option Str} :
      v (.log place) = some (header, body) → Move v (v.sets (stripping place header))
  | attach {v : Held E L} {payload id : Bytes32} {place : LogKey L} {header : Header E}
      {body : Option Str} {bytes : Str} : v (.payloadRef payload id) = some place →
      v (.log place) = some (header, body) → Move v (v.set (.put (.log place) (header, some bytes)))
  | insert {v : Held E L} {place : LogKey L} {header : Header E} {body : Option Str} :
      scope.inserts place header → v (.log place) = none → v (.op header.hash) = none →
      header.place place.logId = place → Move v (v.sets (insertion place header body))
  | aside {v : Held E L} {w : Write E L} : Beside scope.stages w → Move v (v.set w)
  | unref {v : Held E L} {payload id : Bytes32} : Move v (v.set (.delete (.payloadRef payload id)))
  | unlink {v : Held E L} {header : Header E} : scope.unlinks header →
      Move v (v.sets (unlinking header))
  | haunt {v : Held E L} {place : LogKey L} {header : Header E} : scope.recalls place header →
      v (.log place) = none → header.place place.logId = place →
      Move v (v.set (.put (.log place) (header, none)))

abbrev Moves : Held E L → Held E L → Prop := ReflTransGen (Move scope)

variable {scope}

theorem Moves.mono {scope' : Scope E L} {v v' : Held E L} (hwithin : scope.Within scope')
    (h : Moves scope v v') : Moves scope' v v' := by
  refine ReflTransGen.mono ?_ _ _ h
  intro _ _ hmove
  cases hmove with
  | remove hremoves hplace => exact .remove (hwithin.removes _ hremoves) hplace
  | strip hplace => exact .strip hplace
  | attach href hplace => exact .attach href hplace
  | insert hinserts hplace hid hat => exact .insert (hwithin.inserts _ _ hinserts) hplace hid hat
  | aside haside => exact .aside (haside.mono hwithin.stages)
  | unref => exact .unref
  | unlink hunlinks => exact .unlink (hwithin.unlinks _ hunlinks)
  | haunt hrecalls hplace hat => exact .haunt (hwithin.recalls _ _ hrecalls) hplace hat

end Move

section Keys

variable [DecidableEq L] {v : Held E L} {place' : LogKey L} {header : Header E}
  {body : Option Str} {entry : Header E × Option Str} {id' payload payload' : Bytes32}
  (o : Option Bytes32)

/-! ## What a move leaves where -/

theorem set_put_log : v.set (.put (.log place) entry) (.log place') =
    if place' = place then some entry else v (.log place') := by
  by_cases h : place' = place
  · subst h
    rw [if_pos rfl, View.set_put_self]
  · rw [if_neg h]
    exact View.set_of_ne fun hkey => h (Key.log.inj hkey)

theorem set_put_op : v.set (.put (.op id) place) (.op id') =
    if id' = id then some place else v (.op id') := by
  by_cases h : id' = id
  · subst h
    rw [if_pos rfl, View.set_put_self]
  · rw [if_neg h]
    exact View.set_of_ne fun hkey => h (Key.op.inj hkey)

theorem set_put_ref : v.set (.put (.payloadRef payload id) place) (.payloadRef payload' id') =
    if payload' = payload ∧ id' = id then some place else v (.payloadRef payload' id') := by
  by_cases h : payload' = payload ∧ id' = id
  · obtain ⟨rfl, rfl⟩ := h
    rw [if_pos ⟨rfl, rfl⟩, View.set_put_self]
  · rw [if_neg h]
    exact View.set_of_ne fun hkey => h (Key.payloadRef.inj hkey)

theorem set_put_of_ne {key key' : Key L} {value : Value E key} (h : key' ≠ key) :
    v.set (.put key value) key' = v key' :=
  View.set_of_ne h

theorem op_put_log : v.set (.put (.log place) entry) (.op id) = v (.op id) :=
  View.set_of_ne nofun

theorem ref_put_log :
    v.set (.put (.log place) entry) (.payloadRef payload id) = v (.payloadRef payload id) :=
  View.set_of_ne nofun

theorem log_forgetRef : v.sets (forgetRef o id) (.log place') = v (.log place') := by
  cases o <;> simp [forgetRef, View.set_delete_apply]

theorem op_forgetRef : v.sets (forgetRef o id) (.op id') = v (.op id') := by
  cases o <;> simp [forgetRef, View.set_delete_apply]

theorem ref_forgetRef : v.sets (forgetRef o id) (.payloadRef payload' id') =
    if o = some payload' ∧ id' = id then none else v (.payloadRef payload' id') := by
  cases o with
  | none => simp [forgetRef]
  | some payload => simp [forgetRef, View.set_delete_apply, eq_comm]

theorem log_removal : v.sets (removal place header) (.log place') =
    if place' = place then none else v (.log place') := by
  simp only [removal, View.sets_append, View.sets_cons, View.sets_nil, cons_append]
  rw [View.set_delete_apply, log_forgetRef, View.set_delete_apply]
  simp

theorem op_removal : v.sets (removal place header) (.op id') =
    if id' = header.hash then none else v (.op id') := by
  simp only [removal, View.sets_append, View.sets_cons, View.sets_nil, cons_append]
  rw [View.set_delete_apply, op_forgetRef, View.set_delete_apply]
  simp

theorem ref_removal : v.sets (removal place header) (.payloadRef payload' id') =
    if header.payloadHash = some payload' ∧ id' = header.hash then none
    else v (.payloadRef payload' id') := by
  simp only [removal, View.sets_append, View.sets_cons, View.sets_nil, cons_append]
  rw [View.set_delete_apply, ref_forgetRef, View.set_delete_apply]
  simp

theorem log_unlinking : v.sets (unlinking header) (.log place') = v (.log place') := by
  rw [unlinking, View.sets_cons, log_forgetRef, View.set_delete_apply, if_neg nofun]

theorem op_unlinking : v.sets (unlinking header) (.op id') =
    if id' = header.hash then none else v (.op id') := by
  rw [unlinking, View.sets_cons, op_forgetRef, View.set_delete_apply]
  simp

theorem ref_unlinking : v.sets (unlinking header) (.payloadRef payload' id') =
    if header.payloadHash = some payload' ∧ id' = header.hash then none
    else v (.payloadRef payload' id') := by
  rw [unlinking, View.sets_cons, ref_forgetRef, View.set_delete_apply]
  simp

theorem log_stripping : v.sets (stripping place header) (.log place') =
    if place' = place then some (header, none) else v (.log place') := by
  rw [stripping, View.sets_append, View.sets_cons, View.sets_nil, set_put_log, log_forgetRef]

theorem op_stripping : v.sets (stripping place header) (.op id') = v (.op id') := by
  rw [stripping, View.sets_append, View.sets_cons, View.sets_nil, op_put_log, op_forgetRef]

theorem ref_stripping : v.sets (stripping place header) (.payloadRef payload' id') =
    if header.payloadHash = some payload' ∧ id' = header.hash then none
    else v (.payloadRef payload' id') := by
  rw [stripping, View.sets_append, View.sets_cons, View.sets_nil, ref_put_log, ref_forgetRef]

theorem log_insertion : v.sets (insertion place header body) (.log place') =
    if place' = place then some (header, body) else v (.log place') := by
  cases h : header.payloadHash <;>
    simp [insertion, h, set_put_log, set_put_of_ne]

theorem op_insertion : v.sets (insertion place header body) (.op id') =
    if id' = header.hash then some place else v (.op id') := by
  cases h : header.payloadHash <;>
    simp [insertion, h, set_put_op, set_put_of_ne]

theorem ref_insertion : v.sets (insertion place header body) (.payloadRef payload' id') =
    if header.payloadHash = some payload' ∧ id' = header.hash then some place
    else v (.payloadRef payload' id') := by
  cases h : header.payloadHash <;>
    simp [insertion, h, set_put_ref, set_put_of_ne, eq_comm]

end Keys

/-! ## What a move can do -/

section Inversion

variable [DecidableEq L] {scope : Scope E L} {v v' : Held E L}

theorem aside_set {w : Write E L} (hw : w.key.Aside) :
    (∀ place, v.set w (.log place) = v (.log place)) ∧ (∀ id, v.set w (.op id) = v (.op id)) ∧
      ∀ payload id, v.set w (.payloadRef payload id) = v (.payloadRef payload id) := by
  refine ⟨fun place => View.set_of_ne ?_, fun id => View.set_of_ne ?_,
    fun payload id => View.set_of_ne ?_⟩
  all_goals
    intro hkey
    rw [← hkey] at hw
    exact hw

theorem some_of_ite_none {p : Prop} [Decidable p] {α : Type} {o : Option α} {a : α}
    (h : (if p then none else o) = some a) : o = some a := by
  split at h
  · cases h
  · exact h

inductive LogChange (scope : Scope E L) (v v' : Held E L) (place : LogKey L) : Prop
  | same : v' (.log place) = v (.log place) → LogChange scope v v' place
  | removed {header : Header E} {body : Option Str} : scope.removes place →
      v (.log place) = some (header, body) → v' (.log place) = none → v' (.op header.hash) = none →
      LogChange scope v v' place
  | stripped {header : Header E} {body : Option Str} : v (.log place) = some (header, body) →
      v' (.log place) = some (header, none) → LogChange scope v v' place
  | attached {header : Header E} {body : Option Str} {bytes : Str} {payload id : Bytes32} :
      v (.payloadRef payload id) = some place → v (.log place) = some (header, body) →
      v' (.log place) = some (header, some bytes) → LogChange scope v v' place
  | inserted {header : Header E} {body : Option Str} : scope.inserts place header →
      v (.log place) = none → header.place place.logId = place →
      v' (.log place) = some (header, body) → v' (.op header.hash) = some place →
      LogChange scope v v' place
  | haunted {header : Header E} : scope.recalls place header → v (.log place) = none →
      header.place place.logId = place → v' (.log place) = some (header, none) →
      LogChange scope v v' place

theorem Move.log_cases (hmove : Move scope v v') (place : LogKey L) :
    LogChange scope v v' place := by
  cases hmove with
  | @remove place' header body hremoves hplace =>
    by_cases heq : place = place'
    · subst heq
      refine .removed hremoves hplace ?_ ?_
      · rw [log_removal, if_pos rfl]
      · rw [op_removal, if_pos rfl]
    · exact .same (by rw [log_removal, if_neg heq])
  | @strip place' header body hplace =>
    by_cases heq : place = place'
    · subst heq
      exact .stripped hplace (by rw [log_stripping, if_pos rfl])
    · exact .same (by rw [log_stripping, if_neg heq])
  | @attach payload id place' header body bytes href hplace =>
    by_cases heq : place = place'
    · subst heq
      exact .attached href hplace (by rw [set_put_log, if_pos rfl])
    · exact .same (by rw [set_put_log, if_neg heq])
  | @insert place' header body hinserts hfree hnew hplaced =>
    by_cases heq : place = place'
    · subst heq
      have hentry : v.sets (insertion place header body) (.log place) = some (header, body) := by
        rw [log_insertion, if_pos rfl]
      exact .inserted hinserts hfree hplaced hentry (by rw [op_insertion, if_pos rfl])
    · exact .same (by rw [log_insertion, if_neg heq])
  | aside hw => exact .same ((aside_set hw.key).1 place)
  | unref => exact .same (by rw [View.set_delete_apply, if_neg nofun])
  | unlink => exact .same log_unlinking
  | @haunt place' header hrecalls hfree hplaced =>
    by_cases heq : place = place'
    · subst heq
      exact .haunted hrecalls hfree hplaced (by rw [set_put_log, if_pos rfl])
    · exact .same (by rw [set_put_log, if_neg heq])

inductive OpChange (scope : Scope E L) (v v' : Held E L) (id : Bytes32) : Prop
  | same : v' (.op id) = v (.op id) → OpChange scope v v' id
  | deleted {header : Header E} : header.hash = id → v' (.op id) = none →
      (scope.unlinks header ∨ ∃ place body, v (.log place) = some (header, body) ∧
        v' (.log place) = none) →
      (∀ payload, header.payloadHash = some payload → v' (.payloadRef payload id) = none) →
      OpChange scope v v' id
  | inserted {place : LogKey L} {header : Header E} {body : Option Str} : header.hash = id →
      scope.inserts place header → v (.op id) = none → v' (.op id) = some place →
      v' (.log place) = some (header, body) → OpChange scope v v' id

theorem Move.op_cases (hmove : Move scope v v') (id : Bytes32) : OpChange scope v v' id := by
  cases hmove with
  | @remove place header body hremoves hplace =>
    by_cases heq : id = header.hash
    · subst heq
      refine .deleted rfl ?_ (.inr ⟨place, body, hplace, ?_⟩) fun payload hpayload => ?_
      · rw [op_removal, if_pos rfl]
      · rw [log_removal, if_pos rfl]
      · rw [ref_removal, if_pos ⟨hpayload, rfl⟩]
    · exact .same (by rw [op_removal, if_neg heq])
  | strip => exact .same op_stripping
  | attach | haunt => exact .same op_put_log
  | @insert place header body hinserts hfree hnew hplaced =>
    by_cases heq : id = header.hash
    · subst heq
      have hentry : v.sets (insertion place header body) (.log place) = some (header, body) := by
        rw [log_insertion, if_pos rfl]
      exact .inserted rfl hinserts hnew (by rw [op_insertion, if_pos rfl]) hentry
    · exact .same (by rw [op_insertion, if_neg heq])
  | aside hw => exact .same ((aside_set hw.key).2.1 id)
  | unref => exact .same (by rw [View.set_delete_apply, if_neg nofun])
  | @unlink header hunlinks =>
    by_cases heq : id = header.hash
    · subst heq
      refine .deleted rfl ?_ (.inl hunlinks) fun payload hpayload => ?_
      · rw [op_unlinking, if_pos rfl]
      · rw [ref_unlinking, if_pos ⟨hpayload, rfl⟩]
    · exact .same (by rw [op_unlinking, if_neg heq])

theorem Move.ref_cases (hmove : Move scope v v') {payload : Bytes32}
    (href : v' (.payloadRef payload id) = some place) :
    v (.payloadRef payload id) = some place ∨
      ∃ header, scope.inserts place header ∧ header.hash = id ∧ header.payloadHash = some payload ∧
        v' (.op id) = some place := by
  cases hmove with
  | remove =>
    rw [ref_removal] at href
    exact .inl (some_of_ite_none href)
  | strip =>
    rw [ref_stripping] at href
    exact .inl (some_of_ite_none href)
  | attach | haunt =>
    exact .inl href
  | @insert place' header body hinserts =>
    rw [ref_insertion] at href
    split at href
    · rename_i heq
      obtain rfl := some.inj href
      refine .inr ⟨header, hinserts, heq.2.symm, heq.1, ?_⟩
      rw [op_insertion, if_pos heq.2]
    · exact .inl href
  | aside hw =>
    rw [(aside_set hw.key).2.2] at href
    exact .inl href
  | unref =>
    rw [View.set_delete_apply] at href
    exact .inl (some_of_ite_none href)
  | unlink =>
    rw [ref_unlinking] at href
    exact .inl (some_of_ite_none href)

end Inversion

/-! ## What moves keep -/

section Keep

variable [DecidableEq L] {headerOf : Bytes32 → Header E} {scope : Scope E L} {v v' : Held E L}
variable {header : Header E} {body : Option Str} {k : Key L}

theorem Move.entry (hmove : Move scope v v') (hplace : v (.log place) = some (header, body)) :
    (∃ body', v' (.log place) = some (header, body')) ∨
      scope.removes place ∧ v' (.log place) = none ∧ v' (.op header.hash) = none := by
  cases hmove.log_cases place with
  | same heq => exact .inl ⟨body, heq.trans hplace⟩
  | removed hremoves hbefore hafter hop =>
    rw [hplace] at hbefore
    cases hbefore
    exact .inr ⟨hremoves, hafter, hop⟩
  | stripped hbefore hafter | attached _ hbefore hafter =>
    rw [hplace] at hbefore
    cases hbefore
    exact .inl ⟨_, hafter⟩
  | inserted _ hfree | haunted _ hfree =>
    rw [hplace] at hfree
    cases hfree

theorem Move.header_cases (hmove : Move scope v v')
    (hplace : v' (.log place) = some (header, body)) :
    (∃ body', v (.log place) = some (header, body')) ∨ header.place place.logId = place ∧
      (scope.inserts place header ∧ v' (.op header.hash) = some place ∨
        scope.recalls place header) := by
  cases hmove.log_cases place with
  | same heq => exact .inl ⟨body, heq ▸ hplace⟩
  | removed _ _ hafter =>
    rw [hplace] at hafter
    cases hafter
  | stripped hbefore hafter | attached _ hbefore hafter =>
    rw [hplace] at hafter
    cases hafter
    exact .inl ⟨_, hbefore⟩
  | inserted hinserts _ hplaced hafter hop =>
    rw [hplace] at hafter
    cases hafter
    exact .inr ⟨hplaced, .inl ⟨hinserts, hop⟩⟩
  | haunted hrecalls _ hplaced hafter =>
    rw [hplace] at hafter
    cases hafter
    exact .inr ⟨hplaced, .inr hrecalls⟩

theorem Sound.move (h : Sound headerOf v) (hknown : scope.Known headerOf)
    (hmove : Move scope v v') : Sound headerOf v' := by
  refine ⟨fun id place hid => ?_, fun place header body hplace => ?_,
    fun place header body hplace => ?_, fun payload id place href => ?_⟩
  · cases hmove.op_cases id with
    | same heq =>
      obtain ⟨header, body, hplace, rfl⟩ := h.pointer id place (heq ▸ hid)
      rcases hmove.entry hplace with ⟨body', hafter⟩ | ⟨-, -, hop⟩
      · exact ⟨header, body', hafter, rfl⟩
      · rw [hid] at hop
        cases hop
    | deleted _ hnone =>
      rw [hid] at hnone
      cases hnone
    | inserted hhash _ _ hop hplace =>
      rw [hid] at hop
      cases hop
      exact ⟨_, _, hplace, hhash⟩
  · rcases hmove.header_cases hplace with ⟨body', hbefore⟩ | ⟨hplaced, -⟩
    · exact h.placed place header body' hbefore
    · exact hplaced
  · rcases hmove.header_cases hplace with ⟨body', hbefore⟩ | ⟨-, ⟨hinserts, -⟩ | hrecalls⟩
    · exact h.known place header body' hbefore
    · exact hknown.inserts place header hinserts
    · exact hknown.recalls place header hrecalls
  · rcases hmove.ref_cases href with hbefore | ⟨header, hinserts, rfl, hpayload, hop⟩
    · obtain ⟨hid, hpayload⟩ := h.ref payload id place hbefore
      refine ⟨?_, hpayload⟩
      cases hmove.op_cases id with
      | same heq => exact heq.trans hid
      | @deleted header hhash _ hwhy hgone =>
        -- What takes the pointer takes the reference of the same header.
        have hheader : headerOf header.hash = header := by
          rcases hwhy with hunlinks | ⟨place', body, hplace', -⟩
          · exact hknown.unlinks header hunlinks
          · exact h.known place' header body hplace'
        rw [← hhash, hheader] at hpayload
        rw [hgone payload hpayload] at href
        cases href
      | inserted _ _ hnew =>
        rw [hid] at hnew
        cases hnew
    · exact ⟨hop, by rw [hknown.inserts place header hinserts, hpayload]⟩

theorem Indexed.move (h : Indexed headerOf v) (hknown : scope.Known headerOf)
    (hclean : scope.Clean) (hmove : Move scope v v') : Indexed headerOf v' := by
  refine ⟨h.toSound.move hknown hmove, fun place header body hplace => ?_⟩
  rcases hmove.header_cases hplace with ⟨body', hbefore⟩ | ⟨-, ⟨-, hop⟩ | hrecalls⟩
  · have hid := h.pointed place header body' hbefore
    cases hmove.op_cases header.hash with
    | same heq => exact heq.trans hid
    | @deleted header' hhash _ hwhy _ =>
      rcases hwhy with hunlinks | ⟨place', body₀, hplace', hgone⟩
      · exact absurd hunlinks (hclean.unlinks header')
      · -- The pointer led to the entry that goes, and so to this one.
        have hid' := h.pointed place' header' body₀ hplace'
        rw [hhash, hid] at hid'
        rw [← some.inj hid', hplace] at hgone
        cases hgone
    | inserted _ _ hnew =>
      rw [hid] at hnew
      cases hnew
  · exact hop
  · exact absurd hrecalls (hclean.recalls place header)

theorem Move.log_ne_none (hmove : Move scope v v')
    (hplace : v (.log place) ≠ none) (hkept : ¬scope.removes place) : v' (.log place) ≠ none := by
  obtain ⟨⟨header, body⟩, hentry⟩ := ne_none_iff_exists'.mp hplace
  rcases hmove.entry hentry with ⟨body', hafter⟩ | ⟨hremoves, -⟩
  · rw [hafter]
    exact some_ne_none _
  · exact absurd hremoves hkept

theorem Move.log_eq_none (hmove : Move scope v v') (hclean : scope.Clean)
    (hplace : v (.log place) = none)
    (hnone : ∀ header, ¬scope.inserts place header) : v' (.log place) = none := by
  refine eq_none_iff_forall_ne_some.mpr fun ⟨header, body⟩ hafter => ?_
  rcases hmove.header_cases hafter with ⟨body', hbefore⟩ | ⟨-, ⟨hinserts, -⟩ | hrecalls⟩
  · rw [hplace] at hbefore
    cases hbefore
  · exact hnone header hinserts
  · exact hclean.recalls place header hrecalls

/-! ## An erased payload -/

/-- Nothing refers to the operation's payload, and where it is held it has no body. -/
structure Erased (v : Held E L) (id : Bytes32) : Prop where
  unreferenced : ∀ payload, v (.payloadRef payload id) = none
  bodiless : ∀ place header body, v (.op id) = some place → v (.log place) = some (header, body) →
    body = none

theorem Erased.move (h : Erased v id) (hsound : Sound headerOf v)
    (hother : ∀ place header, scope.inserts place header → header.hash ≠ id)
    (hmove : Move scope v v') : Erased v' id := by
  refine ⟨fun payload => ?_, fun place header body hid hplace => ?_⟩
  · refine eq_none_iff_forall_ne_some.mpr fun place href => ?_
    rcases hmove.ref_cases href with hbefore | ⟨header, hinserts, hhash, -⟩
    · rw [h.unreferenced] at hbefore
      cases hbefore
    · exact hother place header hinserts hhash
  · have hbefore : v (.op id) = some place := by
      cases hmove.op_cases id with
      | same heq => exact heq ▸ hid
      | deleted _ hnone =>
        rw [hid] at hnone
        cases hnone
      | inserted hhash hinserts => exact absurd hhash (hother _ _ hinserts)
    cases hmove.log_cases place with
    | same heq => exact h.bodiless place header body hbefore (heq ▸ hplace)
    | removed _ _ hafter =>
      rw [hplace] at hafter
      cases hafter
    | stripped _ hafter | haunted _ _ _ hafter =>
      rw [hplace] at hafter
      cases hafter
      rfl
    | @attached _ _ _ payload id' href =>
      -- The reference is the operation's own, and it has none.
      obtain ⟨header', body', hentry, rfl⟩ := hsound.pointer id place hbefore
      obtain ⟨header'', body'', hentry', rfl⟩ := hsound.pointer id' place (hsound.ref _ _ _ href).1
      rw [hentry] at hentry'
      cases hentry'
      rw [h.unreferenced] at href
      cases href
    | inserted _ hfree =>
      obtain ⟨header', body', hentry, -⟩ := hsound.pointer id place hbefore
      rw [hfree] at hentry
      cases hentry

section

variable (hsound : Sound headerOf v)
include hsound

omit [DecidableEq L] in
theorem erased_of_none (hid : v (.op id) = none) :
    Erased v id := by
  refine ⟨fun payload => eq_none_iff_forall_ne_some.mpr fun place href => ?_,
    fun place header body hid' => ?_⟩
  · rw [(hsound.ref payload id place href).1] at hid
    cases hid
  · rw [hid'] at hid
    cases hid

theorem unreferenced_forgetRef (hplace : v (.log place) = some (header, body)) (payload : Bytes32) :
    v.sets (forgetRef header.payloadHash header.hash) (.payloadRef payload header.hash) = none := by
  rw [ref_forgetRef]
  split
  · rfl
  · rename_i hne
    refine eq_none_iff_forall_ne_some.mpr fun place' href => hne ⟨?_, rfl⟩
    have hpayload := (hsound.ref payload _ place' href).2
    rwa [hsound.known place header body hplace] at hpayload

theorem erased_stripping (hplace : v (.log place) = some (header, body))
    (hpointer : ∀ place', v (.op header.hash) = some place' → place' = place) :
    Erased (v.sets (stripping place header)) header.hash := by
  refine ⟨fun payload => ?_, fun place' header' body' hid hplace' => ?_⟩
  · rw [stripping, View.sets_append]
    exact unreferenced_forgetRef hsound hplace payload
  · rw [op_stripping] at hid
    rw [log_stripping, if_pos (hpointer place' hid)] at hplace'
    cases hplace'
    rfl

theorem erased_forgetRef (hplace : v (.log place) = some (header, none))
    (hpointer : ∀ place', v (.op header.hash) = some place' → place' = place) :
    Erased (v.sets (forgetRef header.payloadHash header.hash)) header.hash := by
  refine ⟨unreferenced_forgetRef hsound hplace, fun place' header' body' hid hplace' => ?_⟩
  rw [op_forgetRef] at hid
  rw [log_forgetRef, hpointer place' hid, hplace] at hplace'
  cases hplace'
  rfl

end

/-! ## What is staged -/

def Staged (stages : DropRecord E → Prop) (v : Held E L) : Prop :=
  ∀ drop i record, v (.stage drop i) = some record → stages record

theorem sets_inside {writes : List (Write E L)} (h : ∀ w ∈ writes, ¬w.key.Aside)
    (hk : k.Aside) : v.sets writes k = v k :=
  View.sets_of_forall_ne fun w hw heq => h w hw (heq ▸ hk)

omit [DecidableEq L] in
theorem inside_forgetRef {o : Option Bytes32} :
    ∀ w ∈ (forgetRef o id : List (Write E L)), ¬w.key.Aside := by
  intro w hw
  obtain ⟨payload, -, rfl⟩ := mem_map.mp hw
  exact fun h => h

theorem Staged.move (h : Staged stages v) (hmove : Move scope v v')
    (hstages : ∀ record, scope.stages record → stages record) : Staged stages v' := by
  intro drop i record
  have hstage : (Key.stage drop i : Key L).Aside := trivial
  cases hmove with
  | remove =>
    rw [sets_inside ?_ hstage]
    · exact h drop i record
    · exact forall_mem_append.mpr ⟨forall_mem_cons.mpr ⟨id, inside_forgetRef⟩,
        forall_mem_singleton.mpr id⟩
  | strip =>
    rw [sets_inside ?_ hstage]
    · exact h drop i record
    · exact forall_mem_append.mpr ⟨inside_forgetRef, forall_mem_singleton.mpr id⟩
  | attach | unref | haunt =>
    exact h drop i record
  | insert =>
    rw [sets_inside ?_ hstage]
    · exact h drop i record
    · refine forall_mem_append.mpr ⟨forall_mem_cons.mpr
        ⟨id, forall_mem_singleton.mpr id⟩, fun w hw => ?_⟩
      obtain ⟨payload, -, rfl⟩ := mem_map.mp hw
      exact id
  | @aside w hw =>
    by_cases heq : Key.stage drop i = w.key
    · cases w with
      | put key value =>
        obtain rfl : Key.stage drop i = key := heq
        rw [View.set_put_self]
        rintro ⟨⟩
        exact hstages _ (hw.staged drop i _ rfl)
      | delete key =>
        obtain rfl : Key.stage drop i = key := heq
        rw [View.set_delete_self]
        exact nofun
    · rw [View.set_of_ne heq]
      exact h drop i record
  | unlink =>
    rw [sets_inside ?_ hstage]
    · exact h drop i record
    · exact forall_mem_cons.mpr ⟨id, inside_forgetRef⟩

/-! ## Runs of moves -/

section Runs

variable (hmoves : Moves scope v v')

include hmoves

theorem Sound.moves (h : Sound headerOf v) (hknown : scope.Known headerOf) : Sound headerOf v' :=
  keeps_of_chain (fun _ _ hmove hsound => hsound.move hknown hmove) hmoves h

theorem Indexed.moves (h : Indexed headerOf v) (hknown : scope.Known headerOf)
    (hclean : scope.Clean) : Indexed headerOf v' :=
  keeps_of_chain (fun _ _ hmove hindexed => hindexed.move hknown hclean hmove) hmoves h

theorem Staged.moves (h : Staged stages v)
    (hstages : ∀ record, scope.stages record → stages record) : Staged stages v' :=
  keeps_of_chain (fun _ _ hmove hstaged => hstaged.move hmove hstages) hmoves h

theorem Erased.moves (h : Erased v id) (hsound : Sound headerOf v) (hknown : scope.Known headerOf)
    (hother : ∀ place header, scope.inserts place header → header.hash ≠ id) : Erased v' id := by
  have hboth : Sound headerOf v' ∧ Erased v' id :=
    keeps_of_chain (P := fun v => Sound headerOf v ∧ Erased v id)
      (fun _ _ hmove hkept => ⟨hkept.1.move hknown hmove, hkept.2.move hkept.1 hother hmove⟩) hmoves
      ⟨hsound, h⟩
  exact hboth.2

theorem Moves.log_ne_none (hplace : v (.log place) ≠ none)
    (hkept : ¬scope.removes place) : v' (.log place) ≠ none :=
  keeps_of_chain (P := fun v : Held E L => v (.log place) ≠ none)
    (fun _ _ hmove h => hmove.log_ne_none h hkept) hmoves hplace

theorem Moves.log_eq_none (hclean : scope.Clean) (hplace : v (.log place) = none)
    (hnone : ∀ header, ¬scope.inserts place header) : v' (.log place) = none :=
  keeps_of_chain (P := fun v : Held E L => v (.log place) = none)
    (fun _ _ hmove h => hmove.log_eq_none hclean h hnone) hmoves hplace

end Runs

end Keep

end Mere.Stickleback
