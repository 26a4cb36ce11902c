import Mere.Base.Prefix
import Mere.Notochord.Admission

/-!
# What a session proof is bound to
-/

namespace Mere.Notochord

open Personae List

theorem prefixFree_leBytes (width : Nat) : PrefixFree (leBytes width) (· < 256 ^ width) := by
  refine .of_length (n := width) (fun n => by simp [leBytes]) fun n m hn hm h => ?_
  exact eq_of_bytes width hn hm fun i hi => map_inj_left.mp h i (mem_range.mpr hi)

theorem prefixFree_pushBytes : PrefixFree pushBytes (·.length < 256 ^ 8) :=
  (prefixFree_leBytes 8).counted

theorem prefixFree_idBytes : PrefixFree idBytes fun _ => True := by
  refine .of_length (n := 32) (fun id => by simp [idBytes]) fun a b _ _ h => Fin.ext ?_
  refine eq_of_bytes 32 (by omega) (by omega) fun i hi => ?_
  have := map_inj_left.mp h (31 - i) (mem_range.mpr (by omega))
  rwa [Nat.sub_sub_self (by omega)] at this

theorem prefixFree_pushOption :
    PrefixFree pushOption fun value => ∀ bytes ∈ value, bytes.length < 256 ^ 8 := by
  intro a b s t ha hb h
  rcases a with _ | a <;> rcases b with _ | b
  · exact ⟨rfl, (cons.inj h).2⟩
  · cases (cons.inj h).1
  · cases (cons.inj h).1
  · obtain ⟨rfl, hrest⟩ := prefixFree_pushBytes (ha a rfl) (hb b rfl) (cons.inj h).2
    exact ⟨rfl, hrest⟩

theorem classTag_injective : Function.Injective classTag := by
  intro a b h
  cases a <;> cases b <;> first | rfl | cases h

/-- The widths that the fields have. -/
structure InRange (hello : SessionHello) (binding : ProofBinding) : Prop where
  version : hello.version < 256 ^ 2
  profile : hello.profile.id.length < 256 ^ 8
  revision : hello.profile.revision < 256 ^ 4
  domain : hello.action.domain.length < 256 ^ 8
  path : hello.action.path.length < 256 ^ 8
  action : hello.action.action.length < 256 ^ 8
  delegations : hello.delegations.length < 256 ^ 8
  protocol : binding.protocol.length < 256 ^ 8
  sharedLink : ∀ link ∈ binding.sharedLink, link.length < 256 ^ 8

variable (prims : Primitives)

def certificateIds (hello : SessionHello) : List Bytes32 :=
  hello.delegations.map (prims.digest ·.certificate)

structure SameSession (h₁ h₂ : SessionHello) (b₁ b₂ : ProofBinding) : Prop where
  version : h₁.version = h₂.version
  network : h₁.network = h₂.network
  profile : h₁.profile = h₂.profile
  action : h₁.action = h₂.action
  class_ : h₁.class_ = h₂.class_
  nonce : h₁.nonce = h₂.nonce
  subject : h₁.subject = h₂.subject
  binding : b₁ = b₂
  certificates : certificateIds prims h₁ = certificateIds prims h₂

/-- Equal transcripts are of one session, and so are equal session ids, as far as the digest tells
the two transcripts apart. -/
theorem transcript_binds (h₁ h₂ : SessionHello) (b₁ b₂ : ProofBinding) (hr₁ : InRange h₁ b₁)
    (hr₂ : InRange h₂ b₂) :
    (transcript prims h₁ b₁ = transcript prims h₂ b₂ → SameSession prims h₁ h₂ b₁ b₂) ∧
      ((({transcript prims h₁ b₁, transcript prims h₂ b₂} : Set Str).InjOn prims.hash) →
        h₁.sessionId prims b₁ = h₂.sessionId prims b₂ → SameSession prims h₁ h₂ b₁ b₂) := by
  have hsame : transcript prims h₁ b₁ = transcript prims h₂ b₂ →
      SameSession prims h₁ h₂ b₁ b₂ := by
    intro h
    simp only [transcript, append_assoc] at h
    -- Field by field, from the front.
    obtain ⟨hversion, h⟩ := prefixFree_leBytes 2 hr₁.version hr₂.version (append_cancel_left h)
    obtain ⟨hnetwork, h⟩ := prefixFree_idBytes trivial trivial h
    obtain ⟨hprofile, h⟩ := prefixFree_pushBytes hr₁.profile hr₂.profile h
    obtain ⟨hrevision, h⟩ := prefixFree_leBytes 4 hr₁.revision hr₂.revision h
    obtain ⟨hprotocol, h⟩ := prefixFree_pushBytes hr₁.protocol hr₂.protocol h
    obtain ⟨hdomain, h⟩ := prefixFree_pushBytes hr₁.domain hr₂.domain h
    obtain ⟨hpath, h⟩ := prefixFree_pushBytes hr₁.path hr₂.path h
    obtain ⟨haction, h⟩ := prefixFree_pushBytes hr₁.action hr₂.action h
    obtain ⟨hclass, h⟩ := cons.inj h
    obtain ⟨hnonce, h⟩ := prefixFree_idBytes trivial trivial h
    obtain ⟨hsubject, h⟩ := prefixFree_idBytes trivial trivial h
    have hid : ∀ peer : Option Bytes32, ∀ bytes ∈ peer.map idBytes, bytes.length < 256 ^ 8 := by
      intro peer bytes hbytes
      obtain ⟨id, -, rfl⟩ := Option.mem_map.mp hbytes
      simp [idBytes]
    obtain ⟨hpeer, h⟩ := prefixFree_pushOption (hid _) (hid _) h
    obtain ⟨hlink, h⟩ := prefixFree_pushOption hr₁.sharedLink hr₂.sharedLink h
    obtain ⟨hlength, h⟩ := prefixFree_leBytes 8 hr₁.delegations hr₂.delegations h
    have hcertificates : certificateIds prims h₁ = certificateIds prims h₂ := by
      have heq : (certificateIds prims h₁).flatMap idBytes ++ [] =
          (certificateIds prims h₂).flatMap idBytes := by
        rw [append_nil, certificateIds, certificateIds, flatMap_map, flatMap_map]
        exact h
      obtain ⟨left, hleft, hnone⟩ :=
        prefixFree_idBytes.flatMap (by simp [idBytes]) (by simp) (by simp) heq
      cases left with
      | nil => rw [hleft, append_nil]
      | cons id left => simp [idBytes] at hnone
    have hidBytes : Function.Injective idBytes := fun a b heq =>
      (prefixFree_idBytes (s := []) (t := []) trivial trivial (by rw [heq])).1
    refine ⟨hversion, hnetwork, ?_, ?_, classTag_injective hclass, hnonce, hsubject, ?_,
      hcertificates⟩
    · exact (ProfileRef.mk.injEq ..).mpr ⟨hprofile, hrevision⟩
    · exact (RequestedAction.mk.injEq ..).mpr ⟨hdomain, hpath, haction⟩
    · exact (ProofBinding.mk.injEq ..).mpr ⟨hprotocol, Option.map_injective hidBytes hpeer, hlink⟩
  exact ⟨hsame, fun hinj hid => hsame (hinj (.inl rfl) (.inr rfl) hid)⟩

theorem transcript_binds_member :
    SameSession memberPrimitives memberHello memberHello ⟨[], some 9, none⟩ ⟨[], some 9, none⟩ := by
  have hrange : InRange memberHello ⟨[], some 9, none⟩ := by
    constructor <;> simp [memberHello, memberChain]
  exact (transcript_binds memberPrimitives _ _ _ _ hrange hrange).2 (by simp) rfl

end Mere.Notochord
