import Mere.Stickleback.Moves

/-!
# What the store's writes come to

Each way in which the store is written is a run of moves: pruning and deleting, attaching payloads,
and the insertion of an operation with its effects.
-/

namespace Mere.Stickleback

open MunimentStore List Option

variable {E L : Type} [DecidableEq L] {digest : Str → Bytes32} {b : MunimentStore E L}
  {headerOf : Bytes32 → Header E} {scope : Scope E L} {v : Held E L}

namespace MunimentStore

/-! ## Logs -/

theorem logEntry_eq (place : LogKey L) : logEntry b place = Backend.get b (.log place) := rfl

variable {author : Bytes32} {logId : L} {seqNum untilSeq : Nat} {place : LogKey L}

theorem seqIn_eq_some {key : Key L} :
    seqIn author logId key = some seqNum ↔ key = .log ⟨author, logId, seqNum⟩ := by
  cases key with
  | log place =>
    obtain ⟨author', logId', seqNum'⟩ := place
    simp only [seqIn, ite_none_right_eq_some, some.injEq, Key.log.injEq,
      LogKey.mk.injEq, and_assoc]
  | _ => simp [seqIn]

theorem mem_seqNums :
    seqNum ∈ seqNums b author logId ↔ Backend.get b (.log ⟨author, logId, seqNum⟩) ≠ none := by
  unfold seqNums
  rw [mem_insertionSort, mem_filterMap, ← Backend.mem_keys_iff]
  simp only [seqIn_eq_some, exists_eq_right]

theorem nodup_seqNums : (seqNums b author logId).Nodup := by
  refine (perm_insertionSort _ _).nodup_iff.mpr ((AList.keys_nodup b).filterMap ?_)
  intro key key' seqNum hkey hkey'
  exact (seqIn_eq_some.mp hkey).trans (seqIn_eq_some.mp hkey').symm

theorem getLatestEntry_none
    (h : getLatestEntry b author logId = none) (seqNum : Nat) :
    Backend.get b (.log ⟨author, logId, seqNum⟩) = none := by
  by_contra hseq
  unfold getLatestEntry at h
  rw [bind_eq_none_iff] at h
  cases hlast : (seqNums b author logId).getLast? with
  | none =>
    rw [getLast?_eq_none_iff] at hlast
    have hmem := mem_seqNums.mpr hseq
    rw [hlast] at hmem
    cases hmem
  | some last =>
    have hmem := mem_seqNums.mp (mem_of_getLast? hlast)
    exact hmem (map_eq_none_iff.mp (h last hlast))

theorem le_getLatestEntry (hsound : Sound headerOf (Backend.get b))
    {op : Operation E} (h : getLatestEntry b author logId = some op)
    (hseq : Backend.get b (.log ⟨author, logId, seqNum⟩) ≠ none) : seqNum ≤ op.header.seqNum := by
  obtain ⟨last, hlast, hentry⟩ := bind_eq_some_iff.mp h
  obtain ⟨⟨header, body⟩, hlog, rfl⟩ := map_eq_some_iff.mp hentry
  have hplaced : header.seqNum = last := congrArg LogKey.seqNum (hsound.placed _ _ _ hlog)
  change seqNum ≤ header.seqNum
  rw [hplaced]
  have hsorted : (seqNums b author logId).Pairwise (· ≤ ·) := pairwise_insertionSort _ _
  obtain ⟨rest, hrest⟩ := getLast?_eq_some_iff.mp hlast
  have hmem := mem_seqNums.mpr hseq
  rw [hrest] at hsorted hmem
  rcases mem_append.mp hmem with hmem | hmem
  · exact (pairwise_append.mp hsorted).2.2 seqNum hmem last mem_cons_self
  · exact (mem_singleton.mp hmem).le

/-! ## Pruning -/

theorem mem_prunedPlaces :
    place ∈ prunedPlaces b author logId untilSeq ↔
      Backend.get b (.log place) ≠ none ∧ place.author = author ∧ place.logId = logId ∧
        place.seqNum < untilSeq := by
  unfold prunedPlaces
  rw [List.mem_map]
  constructor
  · rintro ⟨seqNum, hseq, rfl⟩
    obtain ⟨hmem, hlt⟩ := List.mem_filter.mp hseq
    exact ⟨mem_seqNums.mp hmem, rfl, rfl, of_decide_eq_true hlt⟩
  · rintro ⟨hplace, rfl, rfl, hlt⟩
    exact ⟨place.seqNum, List.mem_filter.mpr ⟨mem_seqNums.mpr hplace, decide_eq_true hlt⟩, rfl⟩

theorem nodup_prunedPlaces :
    (prunedPlaces b author logId untilSeq).Nodup :=
  (nodup_seqNums.filter _).map fun _ _ h => congrArg LogKey.seqNum h

theorem pruneWritesAt_eq {header : Header E} {body : Option Str}
    (h : Backend.get b (.log place) = some (header, body)) :
    pruneWritesAt b place = removal place header := by
  unfold pruneWritesAt
  rw [logEntry_eq, h]
  rfl

end MunimentStore

variable {o : Option Bytes32} {id : Bytes32} {place : LogKey L} {header : Header E}
  {place' : LogKey L} {places : List (LogKey L)} {payload : Bytes32} {bytes : Str}
  {writes : List (Write E L)} {attached : Nat} {ids : List Bytes32} {u : Held E L}
  {body : Option Str}

theorem moves_forgetRef :
    Moves scope v (v.sets (forgetRef o id)) := by
  cases o with
  | none => exact .refl
  | some payload => exact .single .unref

/-- An entry that is gone already is removed again, to no effect but on what led to it. -/
theorem moves_removal_again (hgone : v (.log place) = none)
    (hop : scope.unlinks header ∨ v (.op header.hash) = none) :
    Moves scope v (v.sets (removal place header)) := by
  have hremoval : v.sets (removal place header) = v.sets (unlinking header) := by
    have hgone' : v.sets (unlinking header) (.log place) = none := by rw [log_unlinking, hgone]
    rw [removal, View.sets_append]
    exact View.set_delete_of_none hgone'
  rw [hremoval]
  rcases hop with hunlinks | hnone
  · exact .single (.unlink hunlinks)
  · rw [unlinking, View.sets_cons, View.set_delete_of_none hnone]
    exact moves_forgetRef

/-- Where a store's entry is, as far as a batch has come. -/
def Remains (scope : Scope E L) (v : Held E L) (place : LogKey L) (header : Header E) : Prop :=
  (∃ body, v (.log place) = some (header, body)) ∨
    v (.log place) = none ∧ (scope.unlinks header ∨ v (.op header.hash) = none)

theorem Remains.removal {header' : Header E}
    (h : Remains scope v place header) (hne : place ≠ place') :
    Remains scope (v.sets (removal place' header')) place header := by
  rcases h with ⟨body, hplace⟩ | ⟨hgone, hop⟩
  · refine .inl ⟨body, ?_⟩
    rw [log_removal, if_neg hne, hplace]
  · refine .inr ⟨?_, hop.imp_right fun hnone => ?_⟩
    · rw [log_removal, if_neg hne, hgone]
    · rw [op_removal, hnone, ite_self]

theorem moves_prune (hnodup : places.Nodup)
    (hremoves : ∀ place ∈ places, scope.removes place)
    (hheld : ∀ place ∈ places, ∃ header body, Backend.get b (.log place) = some (header, body) ∧
      Remains scope v place header) :
    Moves scope v (v.sets (places.flatMap (pruneWritesAt b))) := by
  induction places generalizing v with
  | nil => exact .refl
  | cons place rest ih =>
    rw [nodup_cons] at hnodup
    obtain ⟨header, body, hplace, hremains⟩ := hheld place mem_cons_self
    rw [flatMap_cons, View.sets_append, pruneWritesAt_eq hplace]
    have hfirst : Moves scope v (v.sets (removal place header)) := by
      rcases hremains with ⟨body', hentry⟩ | ⟨hgone, hop⟩
      · exact .single (.remove (hremoves place mem_cons_self) hentry)
      · exact moves_removal_again hgone hop
    refine hfirst.trans (ih hnodup.2 (fun p hp => hremoves p (mem_cons_of_mem _ hp)) ?_)
    intro place' hplace'
    obtain ⟨header', body', hentry, hremains'⟩ := hheld place' (mem_cons_of_mem _ hplace')
    refine ⟨header', body', hentry, hremains'.removal ?_⟩
    rintro rfl
    exact hnodup.1 hplace'

section

variable (hheld : ∀ place ∈ places, Backend.get b (.log place) ≠ none)
include hheld

theorem log_prune (place' : LogKey L) :
    v.sets (places.flatMap (pruneWritesAt b)) (.log place') =
      if place' ∈ places then none else v (.log place') := by
  induction places generalizing v with
  | nil => simp
  | cons place rest ih =>
    obtain ⟨⟨header, body⟩, hplace⟩ := ne_none_iff_exists'.mp (hheld place mem_cons_self)
    rw [flatMap_cons, View.sets_append, pruneWritesAt_eq hplace,
      ih fun p hp => hheld p (mem_cons_of_mem _ hp), log_removal]
    by_cases hrest : place' ∈ rest <;> by_cases heq : place' = place <;> simp [hrest, heq]

theorem op_prune (hid : v.sets (places.flatMap (pruneWritesAt b)) (.op id) = some place') :
    v (.op id) = some place' := by
  induction places generalizing v with
  | nil => exact hid
  | cons place rest ih =>
    obtain ⟨⟨header, body⟩, hplace⟩ := ne_none_iff_exists'.mp (hheld place mem_cons_self)
    rw [flatMap_cons, View.sets_append, pruneWritesAt_eq hplace] at hid
    have hrest := ih (fun p hp => hheld p (mem_cons_of_mem _ hp)) hid
    rw [op_removal] at hrest
    exact some_of_ite_none hrest

end

/-! ## Deleting -/

theorem sets_deleteOperation :
    v.sets ([.delete (.op header.hash), .delete (.log place)] ++
      forgetRef header.payloadHash header.hash) = v.sets (removal place header) := by
  have hleft : ([.delete (.op header.hash), .delete (.log place)] ++
      forgetRef header.payloadHash header.hash : List (Write E L)) =
      ([Key.op header.hash, Key.log place] ++
        header.payloadHash.toList.map (Key.payloadRef · header.hash)).map .delete := by
    simp [forgetRef]
  have hright : (removal place header : List (Write E L)) =
      (Key.op header.hash :: header.payloadHash.toList.map (Key.payloadRef · header.hash) ++
        [Key.log place]).map .delete := by
    simp [removal, forgetRef]
  funext key
  rw [hleft, hright, View.sets_deletes, View.sets_deletes]
  refine if_congr ?_ rfl rfl
  simp only [mem_append, mem_cons, not_mem_nil]
  tauto

theorem moves_deleteOperation (hsound : Sound headerOf (Backend.get b))
    (hremoves : ∀ place, scope.removes place) :
    Moves scope (Backend.get b) (Backend.get (deleteOperation b id).1) := by
  unfold deleteOperation
  split
  · exact .refl
  · rename_i place hid
    obtain ⟨header, body, hplace, rfl⟩ := hsound.pointer id place hid
    rw [logEntry_eq, hplace]
    rw [Backend.get_apply, sets_deleteOperation]
    exact .single (.remove (hremoves place) hplace)

theorem sets_deletePayload :
    v.sets (.put (.log place) (header, none) :: forgetRef header.payloadHash header.hash) =
      v.sets (stripping place header) := by
  funext key
  unfold stripping
  cases hpayload : header.payloadHash with
  | none => rfl
  | some payload =>
    have hne : (Key.log place : Key L) ≠ .payloadRef payload header.hash := nofun
    exact congrFun (Function.update_comm hne _ _ v) key

theorem moves_deleteOperationPayload (hsound : Sound headerOf (Backend.get b)) :
    Moves scope (Backend.get b) (Backend.get (deleteOperationPayload b id).1) := by
  unfold deleteOperationPayload
  split
  · exact .refl
  · rename_i place hid
    obtain ⟨header, body, hplace, rfl⟩ := hsound.pointer id place hid
    rw [logEntry_eq, hplace]
    rw [Backend.get_apply, sets_deletePayload]
    exact .single (.strip hplace)

/-! ## Attaching -/

/-- A write that gives an entry a body by way of a reference. -/
def Attaches (u : Held E L) (w : Write E L) : Prop :=
  ∃ payload id place header body bytes, u (.payloadRef payload id) = some place ∧
    u (.log place) = some (header, body) ∧ w = .put (.log place) (header, some bytes)

theorem mem_payloadRefs :
    id ∈ payloadRefs b payload ↔ Backend.get b (.payloadRef payload id) ≠ none := by
  unfold payloadRefs
  rw [mem_filterMap, ← Backend.mem_keys_iff]
  constructor
  · rintro ⟨key, hkey, hid⟩
    cases key with
    | payloadRef payload' id' =>
      simp only [refOf, ite_none_right_eq_some, some.injEq] at hid
      obtain ⟨rfl, rfl⟩ := hid
      exact hkey
    | _ => cases hid
  · exact fun hkey => ⟨_, hkey, by simp [refOf]⟩

section

variable (hsound : Sound headerOf (Backend.get b))
include hsound

theorem attaches_of_attachmentWrite (hid : Backend.get b (.payloadRef payload id) ≠ none)
    (h : attachmentWrite b payload bytes id = .ok (writes, attached)) :
    ∀ w ∈ writes, Attaches (Backend.get b) w := by
  obtain ⟨place, hplace⟩ := ne_none_iff_exists'.mp hid
  obtain ⟨body, hentry⟩ := hsound.pointer_entry (hsound.ref payload id place hplace).1
  unfold attachmentWrite at h
  rw [hplace] at h
  simp only [logEntry_eq, hentry] at h
  split at h
  · cases h
  split at h
  · cases h
  split at h
  · cases h
    intro w hw
    rw [mem_singleton] at hw
    exact ⟨payload, id, place, _, body, bytes, hplace, hentry, hw⟩
  · cases h
    exact nofun

theorem attaches_of_attachmentWritesFrom
    (hids : ∀ id ∈ ids, Backend.get b (.payloadRef payload id) ≠ none)
    (h : attachmentWritesFrom b payload bytes ids = .ok (writes, attached)) :
    ∀ w ∈ writes, Attaches (Backend.get b) w := by
  induction ids generalizing writes attached with
  | nil =>
    cases h
    exact nofun
  | cons id rest ih =>
    rw [attachmentWritesFrom] at h
    cases hfirst : attachmentWrite b payload bytes id with
    | error => rw [hfirst] at h; cases h
    | ok first =>
      cases hmore : attachmentWritesFrom b payload bytes rest with
      | error => rw [hfirst, hmore] at h; cases h
      | ok more =>
        rw [hfirst, hmore] at h
        cases h
        intro w hw
        rcases mem_append.mp hw with hw | hw
        · exact attaches_of_attachmentWrite hsound (hids id mem_cons_self) hfirst w hw
        · exact ih (fun id hid => hids id (mem_cons_of_mem _ hid)) hmore w hw

theorem attaches_of_attachmentWrites
    (h : attachmentWrites b payload bytes = .ok (writes, attached)) :
    ∀ w ∈ writes, Attaches (Backend.get b) w :=
  attaches_of_attachmentWritesFrom hsound (fun _ hid => mem_payloadRefs.mp hid) h

theorem attaches_of_payloadAttachmentWrites
    (h : payloadAttachmentWrites digest b payload bytes = .ok (writes, attached)) :
    ∀ w ∈ writes, Attaches (Backend.get b) w := by
  unfold payloadAttachmentWrites at h
  split at h
  · cases h
  · exact attaches_of_attachmentWrites hsound h

end

/-- The same pointers and references, and the same headers in the logs. -/
structure SameIndex (u v : Held E L) : Prop where
  log : ∀ place, (v (.log place)).map Prod.fst = (u (.log place)).map Prod.fst
  op : ∀ id, v (.op id) = u (.op id)
  ref : ∀ payload id, v (.payloadRef payload id) = u (.payloadRef payload id)

omit [DecidableEq L] in
theorem SameIndex.refl (v : Held E L) : SameIndex v v :=
    ⟨fun _ => rfl, fun _ => rfl, fun _ _ => rfl⟩

omit [DecidableEq L] in
theorem SameIndex.symm (h : SameIndex u v) : SameIndex v u :=
  ⟨fun place => (h.log place).symm, fun id => (h.op id).symm, fun payload id => (h.ref payload id).symm⟩

omit [DecidableEq L] in
theorem SameIndex.log_ne_none (h : SameIndex u v)
    (hplace : u (.log place) ≠ none) : v (.log place) ≠ none := by
  intro hnone
  have hsame := h.log place
  rw [hnone] at hsame
  exact hplace (map_eq_none_iff.mp hsame.symm)

omit [DecidableEq L] in
theorem SameIndex.entry (h : SameIndex u v) (hplace : u (.log place) = some (header, body)) :
    ∃ body', v (.log place) = some (header, body') := by
  have hsame := h.log place
  rw [hplace] at hsame
  obtain ⟨⟨header', body'⟩, hentry, rfl⟩ := map_eq_some_iff.mp hsame
  exact ⟨body', hentry⟩

theorem SameIndex.put (h : SameIndex u v)
    {body' : Option Str} (hplace : v (.log place) = some (header, body)) :
    SameIndex u (v.set (.put (.log place) (header, body'))) := by
  refine ⟨fun place' => ?_, fun id => ?_, fun payload id => ?_⟩
  · rw [set_put_log, ← h.log]
    split
    · rename_i heq
      rw [heq, hplace]
      rfl
    · rfl
  · rw [op_put_log, h.op]
  · rw [ref_put_log, h.ref]

theorem moves_leading {stages : DropRecord E → Prop}
    (hsame : SameIndex u v) (hwrites : ∀ w ∈ writes, Attaches u w ∨ Beside stages w) :
    (∀ scope : Scope E L, (∀ record, stages record → scope.stages record) →
        Moves scope v (v.sets writes)) ∧ SameIndex u (v.sets writes) := by
  induction writes generalizing v with
  | nil => exact ⟨fun _ _ => .refl, hsame⟩
  | cons w rest ih =>
    have hrest : ∀ w ∈ rest, Attaches u w ∨ Beside stages w := fun w hw =>
      hwrites w (mem_cons_of_mem _ hw)
    rcases hwrites w mem_cons_self with hattach | hbeside
    · obtain ⟨payload, id, place, header, body, bytes, href, hplace, rfl⟩ := hattach
      obtain ⟨body', hentry⟩ := hsame.entry hplace
      have hmove : ∀ scope : Scope E L,
          Move scope v (v.set (.put (.log place) (header, some bytes))) := fun _ =>
        .attach ((hsame.ref payload id).trans href) hentry
      obtain ⟨hmoves, hend⟩ := ih (hsame.put hentry) hrest
      exact ⟨fun scope hle => .head (hmove scope) (hmoves scope hle), hend⟩
    · obtain ⟨hlog, hop, href⟩ := @aside_set E L _ v w hbeside.key
      have hsame' : SameIndex u (v.set w) := by
        refine ⟨fun place => ?_, fun id => ?_, fun payload id => ?_⟩
        · rw [hlog, hsame.log]
        · rw [hop, hsame.op]
        · rw [href, hsame.ref]
      obtain ⟨hmoves, hend⟩ := ih hsame' hrest
      exact ⟨fun scope hle => .head (.aside (hbeside.mono hle)) (hmoves scope hle), hend⟩

abbrev Quiet (w : Write E L) : Prop := Beside (fun _ => False) w

/-! ## An operation with its effects -/

omit [DecidableEq L] in
theorem indexWrites_eq {topic : Bytes32} {op : Operation E} {logId : L}
    (hhash : op.hash = op.header.hash) :
    indexWrites topic op logId =
      .put (.topic topic op.header.verifyingKey logId) () ::
        insertion (op.header.place logId) op.header op.body := by
  unfold indexWrites insertion
  rw [hhash]
  rfl

/-- Every entry of the store is where it was, with its header, or gone; there is nothing new. -/
structure Trimmed (u v : Held E L) : Prop where
  entry : ∀ place header body, u (.log place) = some (header, body) → v (.log place) = none ∨
    ∃ body', v (.log place) = some (header, body') ∧ (body = none → body' = none)
  fresh : ∀ place, u (.log place) = none → v (.log place) = none
  op : ∀ id place, v (.op id) = some place → u (.op id) = some place

omit [DecidableEq L] in
theorem Trimmed.refl (v : Held E L) : Trimmed v v :=
  ⟨fun _ _ body hplace => .inr ⟨body, hplace, fun h => h⟩, fun _ h => h, fun _ _ h => h⟩

theorem Trimmed.forgetRef (h : Trimmed u v) :
    Trimmed u (v.sets (forgetRef o id)) := by
  refine ⟨fun place header body hplace => ?_, fun place hplace => ?_, fun id' place hid => ?_⟩
  · rw [log_forgetRef]
    exact h.entry place header body hplace
  · rw [log_forgetRef]
    exact h.fresh place hplace
  · rw [op_forgetRef] at hid
    exact h.op id' place hid

theorem Trimmed.stripping (h : Trimmed u v) (hplace : u (.log place) = some (header, body)) :
    Trimmed u (v.sets (stripping place header)) := by
  refine ⟨fun place' header' body' hplace' => ?_, fun place' hplace' => ?_, fun id place' hid => ?_⟩
  · rw [log_stripping]
    split
    · rename_i hsame
      rw [hsame, hplace] at hplace'
      cases hplace'
      exact .inr ⟨none, rfl, fun _ => rfl⟩
    · exact h.entry place' header' body' hplace'
  · rw [log_stripping, if_neg, h.fresh place' hplace']
    rintro rfl
    rw [hplace] at hplace'
    cases hplace'
  · rw [op_stripping] at hid
    exact h.op id place' hid

theorem Trimmed.prune
    (hheld : ∀ place ∈ places, Backend.get b (.log place) ≠ none) :
    Trimmed (Backend.get b)
      ((Backend.get b).sets (places.flatMap (pruneWritesAt b))) := by
  refine ⟨fun place header body hplace => ?_, fun place hplace => ?_, fun id place hid => ?_⟩
  · rw [log_prune hheld]
    split
    · exact .inl rfl
    · exact .inr ⟨body, hplace, fun h => h⟩
  · rw [log_prune hheld, hplace, ite_self]
  · exact op_prune hheld hid

section

variable (hsound : Sound headerOf (Backend.get b))
include hsound

theorem eraseWrites_eq (hid : Backend.get b (.op id) = some place) :
    ∃ header body, Backend.get b (.log place) = some (header, body) ∧ header.hash = id ∧
      (eraseWrites b id).1 =
        if body.isNone then forgetRef header.payloadHash header.hash else stripping place header := by
  obtain ⟨header, body, hplace, rfl⟩ := hsound.pointer id place hid
  refine ⟨header, body, hplace, rfl, ?_⟩
  unfold eraseWrites logKeyFor
  rw [hid]
  simp only [logEntry_eq, hplace]
  split <;> rfl

omit hsound in
theorem eraseWrites_none (hid : Backend.get b (.op id) = none) :
    (eraseWrites b id).1 = [] := by
  unfold eraseWrites logKeyFor
  rw [hid]

theorem log_eraseWrites_ne_none (hplace : v (.log place) ≠ none) :
    v.sets (eraseWrites b id).1 (.log place) ≠ none := by
  cases hid : Backend.get b (.op id) with
  | none =>
    rw [eraseWrites_none hid]
    exact hplace
  | some place₀ =>
    obtain ⟨header, body, -, -, heq⟩ := eraseWrites_eq hsound hid
    rw [heq]
    split
    · rw [log_forgetRef]
      exact hplace
    · rw [log_stripping]
      split
      · exact some_ne_none _
      · exact hplace

theorem moves_erase (htrimmed : Trimmed (Backend.get b) v)
    (hrecalls : ∀ place header bytes, Backend.get b (.op id) = some place →
      Backend.get b (.log place) = some (header, some bytes) → v (.log place) = none →
      scope.recalls place header) :
    Moves scope v (v.sets (eraseWrites b id).1) ∧
      Trimmed (Backend.get b) (v.sets (eraseWrites b id).1) := by
  cases hid : Backend.get b (.op id) with
  | none =>
    rw [eraseWrites_none hid]
    exact ⟨.refl, htrimmed⟩
  | some place =>
    obtain ⟨header, body, hplace, hhash, heq⟩ := eraseWrites_eq hsound hid
    rw [heq]
    cases body with
    | none =>
      exact ⟨moves_forgetRef, htrimmed.forgetRef⟩
    | some bytes =>
      rw [if_neg nofun]
      refine ⟨?_, htrimmed.stripping hplace⟩
      rcases htrimmed.entry place header _ hplace with hgone | ⟨body', hentry, -⟩
      · have hgone' : v.sets (forgetRef header.payloadHash header.hash) (.log place) = none := by
          rw [log_forgetRef, hgone]
        rw [stripping, View.sets_append]
        exact moves_forgetRef.trans
          (.single (.haunt (hrecalls place header bytes hid hplace hgone) hgone'
            (hsound.placed place header _ hplace)))
      · exact .single (.strip hentry)

theorem erased_eraseWrites (hknown : scope.Known headerOf)
    (htrimmed : Trimmed (Backend.get b) v) (hv : Sound headerOf v)
    (hheld : Backend.get b (.op id) ≠ none) (hmoves : Moves scope v (v.sets (eraseWrites b id).1)) :
    Erased (v.sets (eraseWrites b id).1) id := by
  obtain ⟨place, hid⟩ := ne_none_iff_exists'.mp hheld
  obtain ⟨header, body, hplace, rfl, heq⟩ := eraseWrites_eq hsound hid
  have hpointer : ∀ place', v (.op header.hash) = some place' → place' = place := by
    intro place' hid'
    have hbefore := htrimmed.op _ place' hid'
    rw [hid] at hbefore
    exact (some.inj hbefore).symm
  rcases htrimmed.entry place header body hplace with hgone | ⟨body', hentry, hnone⟩
  · -- Its entry was pruned, and nothing leads to it.
    refine erased_of_none (hv.moves hmoves hknown) ?_
    have hop : v (.op header.hash) = none := by
      refine eq_none_iff_forall_ne_some.mpr fun place' hid' => ?_
      obtain ⟨header', body', hentry, -⟩ := hv.pointer _ place' hid'
      rw [hpointer place' hid', hgone] at hentry
      cases hentry
    rw [heq]
    split
    · rw [op_forgetRef, hop]
    · rw [op_stripping, hop]
  · rw [heq]
    cases body with
    | none =>
      exact erased_forgetRef hv (hnone rfl ▸ hentry) hpointer
    | some bytes =>
      exact erased_stripping hv hentry hpointer

theorem moves_erases (hknown : scope.Known headerOf)
    (hv : Sound headerOf v) (htrimmed : Trimmed (Backend.get b) v)
    (hrecalls : ∀ id ∈ ids, ∀ place header bytes, Backend.get b (.op id) = some place →
      Backend.get b (.log place) = some (header, some bytes) → v (.log place) = none →
      scope.recalls place header) :
    let v' := v.sets (ids.flatMap fun id => (eraseWrites b id).1)
    Moves scope v v' ∧ Trimmed (Backend.get b) v' ∧
      ∀ id ∈ ids, Backend.get b (.op id) ≠ none →
        (∀ place header, scope.inserts place header → header.hash ≠ id) → Erased v' id := by
  induction ids generalizing v with
  | nil => exact ⟨.refl, htrimmed, nofun⟩
  | cons id rest ih =>
    have hfirst : Moves scope v (v.sets (eraseWrites b id).1) ∧
        Trimmed (Backend.get b) (v.sets (eraseWrites b id).1) :=
      moves_erase hsound htrimmed (hrecalls id mem_cons_self)
    have hrecalls' : ∀ id' ∈ rest, ∀ place header bytes, Backend.get b (.op id') = some place →
        Backend.get b (.log place) = some (header, some bytes) →
        v.sets (eraseWrites b id).1 (.log place) = none →
        scope.recalls place header := by
      intro id' hid' place header bytes hpointer hplace hgone
      refine hrecalls id' (mem_cons_of_mem _ hid') place header bytes hpointer hplace ?_
      by_contra hheld
      exact log_eraseWrites_ne_none hsound hheld hgone
    have hv' := hv.moves hfirst.1 hknown
    obtain ⟨hrest, hend, herased⟩ := ih hv' hfirst.2 hrecalls'
    rw [flatMap_cons, View.sets_append]
    refine ⟨hfirst.1.trans hrest, hend, fun id' hmem hheld hother => ?_⟩
    rcases mem_cons.mp hmem with rfl | hmem
    · exact (erased_eraseWrites hsound hknown htrimmed hv hheld hfirst.1).moves hrest hv' hknown hother
    · exact herased id' hmem hheld hother

end

section Erasures

variable (hsound : Sound headerOf (Backend.get b))
include hsound

theorem log_erases_ne_none (hplace : v (.log place) ≠ none) :
    v.sets (ids.flatMap fun id => (eraseWrites b id).1) (.log place) ≠ none := by
  induction ids generalizing v with
  | nil => exact hplace
  | cons id rest ih =>
    rw [flatMap_cons, View.sets_append]
    exact ih (log_eraseWrites_ne_none hsound hplace)

theorem log_erases_of_body (hmem : id ∈ ids) (hid : Backend.get b (.op id) = some place)
    {header : Header E} {bytes : Str}
    (hplace : Backend.get b (.log place) = some (header, some bytes)) :
    v.sets (ids.flatMap fun id => (eraseWrites b id).1) (.log place) ≠ none := by
  induction ids generalizing v with
  | nil => cases hmem
  | cons id' rest ih =>
    rw [flatMap_cons, View.sets_append]
    rcases mem_cons.mp hmem with rfl | hmem
    · refine log_erases_ne_none hsound ?_
      obtain ⟨header', body, hplace', -, heq⟩ := eraseWrites_eq hsound hid
      rw [hplace] at hplace'
      cases hplace'
      rw [heq, if_neg nofun, log_stripping, if_pos rfl]
      exact some_ne_none _
    · exact ih hmem

theorem op_erases :
    v.sets (ids.flatMap fun id => (eraseWrites b id).1) (.op id) = v (.op id) := by
  induction ids generalizing v with
  | nil => rfl
  | cons id' rest ih =>
    rw [flatMap_cons, View.sets_append, ih]
    cases hid : Backend.get b (.op id') with
    | none => rw [eraseWrites_none hid, View.sets_nil]
    | some place =>
      obtain ⟨header, body, -, -, heq⟩ := eraseWrites_eq hsound hid
      rw [heq]
      split
      · rw [op_forgetRef]
      · rw [op_stripping]

end Erasures

end Mere.Stickleback
