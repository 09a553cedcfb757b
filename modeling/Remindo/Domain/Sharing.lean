import Remindo.Domain.Contracts
import Remindo.Foundation.Base64
import Remindo.Foundation.Regex

namespace Remindo.Domain

open Remindo.Foundation

/-- What an invitation is worth right now. -/
inductive InviteState
  | live | expired | revoked
  deriving DecidableEq, Repr

def inviteState (expiresAt : ℤ) (revokedAt : Option ℤ) (now : ℤ) : InviteState :=
  if revokedAt.isSome then .revoked else if expiresAt ≤ now then .expired else .live

/-- The owner is refused before the limit is consulted. -/
def checkJoin (role : Option RecipientRole) (watchers limit : ℕ) : Except ServiceError Unit :=
  match role with
  | some .owner => .error .permissionDenied
  | some .watcher => .ok ()
  | none => if limit ≤ watchers then .error .recipientLimit else .ok ()

section Links

def inviteTokenBytes : ℕ := 16
def inviteTokenLength : ℕ := 22
def deepLinkMaxLength : ℕ := 64
def inviteDeepLinkPrefix : Text := "inv_".toList

/-- `A-Za-z0-9_-`, which is also what Telegram takes in a payload. -/
def isTokenChar (c : Char) : Bool :=
  decide ('A' ≤ c ∧ c ≤ 'Z') || decide ('a' ≤ c ∧ c ≤ 'z') || decide ('0' ≤ c ∧ c ≤ '9') ||
    decide (c = '_') || decide (c = '-')

/-- `_TOKEN_PATTERN`. -/
def tokenPattern : Regex := .rep inviteTokenLength isTokenChar

/-- `ValidationError` of an invitation, by the message it is raised with. -/
inductive LinkError
  /-- `entropy does not yield a 22-character token` -/
  | entropy
  /-- `deep link payload exceeds 64 characters` -/
  | tooLong
  /-- `payload is not an invitation` -/
  | notInvitation
  /-- `invitation token is malformed` -/
  | malformed
  deriving DecidableEq

/-- Turn raw bytes into a token: base64url without padding. -/
def newInviteToken (entropy : List Base64.Byte) : Except LinkError Text :=
  let token := Text.rstripOf '=' (Base64.encode entropy)
  if tokenPattern.accepts token then .ok token else .error .entropy

/-- The `?start=` payload carrying one token. -/
def buildInvitePayload (token : Text) : Except LinkError Text :=
  let payload := inviteDeepLinkPrefix ++ token
  if deepLinkMaxLength < payload.length then .error .tooLong else .ok payload

/-- The token inside a `?start=` payload. -/
def parseInvitePayload (raw : Text) : Except LinkError Text :=
  if inviteDeepLinkPrefix.isPrefixOf raw then
    let token := raw.drop inviteDeepLinkPrefix.length
    if tokenPattern.accepts token then .ok token else .error .malformed
  else .error .notInvitation

def IsToken (token : Text) : Prop :=
  token.length = inviteTokenLength ∧ ∀ c ∈ token, isTokenChar c = true

def IsInvitePayload (raw : Text) : Prop := ∃ token, IsToken token ∧ raw = inviteDeepLinkPrefix ++ token

variable {raw token : Text}

theorem accepts_tokenPattern : tokenPattern.accepts token = true ↔
    IsToken token ∨ ∃ core, IsToken core ∧ token = core ++ ['\n'] := Regex.accepts_iff

theorem parseInvitePayload_eq_ok : parseInvitePayload raw = .ok token ↔
    tokenPattern.accepts token = true ∧ raw = inviteDeepLinkPrefix ++ token := by
  rw [parseInvitePayload]
  constructor
  · intro h
    split at h
    · rename_i hprefix
      obtain ⟨rest, rfl⟩ := List.isPrefixOf_iff_prefix.mp hprefix
      rw [List.drop_left] at h
      dsimp only at h
      split at h
      · cases h
        exact ⟨‹_›, rfl⟩
      · cases h
    · cases h
  · rintro ⟨haccepts, rfl⟩
    rw [if_pos (List.isPrefixOf_iff_prefix.mpr (List.prefix_append _ _)), List.drop_left]
    exact if_pos haccepts

theorem buildInvitePayload_eq_ok (h : token.length ≤ 60) :
    buildInvitePayload token = .ok (inviteDeepLinkPrefix ++ token) := by
  refine if_neg ?_
  rw [List.length_append]
  change ¬64 < 4 + token.length
  omega

theorem parse_build (h : IsToken token) :
    (buildInvitePayload token).bind parseInvitePayload = .ok token := by
  have hlength := h.1
  rw [inviteTokenLength] at hlength
  rw [buildInvitePayload_eq_ok (by omega)]
  exact parseInvitePayload_eq_ok.mpr ⟨accepts_tokenPattern.mpr (.inl h), rfl⟩

theorem isTokenChar_letter : ∀ s, isTokenChar (Base64.letter s) = true := by decide +kernel

/-- A token is as many letters as the bytes take, none of them a newline. -/
theorem newInviteToken_eq_ok {entropy : List Base64.Byte} : newInviteToken entropy = .ok token ↔
    entropy.length = inviteTokenBytes ∧ token = (Base64.sextets entropy).map Base64.letter := by
  have hletters : ∀ c ∈ (Base64.sextets entropy).map Base64.letter, isTokenChar c = true := by
    rw [List.forall_mem_map]
    exact fun s _ ↦ isTokenChar_letter s
  have hlength : ((Base64.sextets entropy).map Base64.letter).length = inviteTokenLength ↔
      entropy.length = inviteTokenBytes := by
    rw [List.length_map, Base64.length_sextets, inviteTokenLength, inviteTokenBytes]
    omega
  have haccepts : tokenPattern.accepts ((Base64.sextets entropy).map Base64.letter) = true ↔
      entropy.length = inviteTokenBytes := by
    rw [accepts_tokenPattern, ← hlength]
    refine ⟨fun h ↦ ?_, fun h ↦ .inl ⟨h, hletters⟩⟩
    rcases h with h | ⟨core, -, heq⟩
    · exact h.1
    · rw [heq] at hletters
      cases hletters '\n' (by simp)
  rw [newInviteToken, Base64.rstripOf_encode]
  rw [← haccepts]
  split
  · simp [*, eq_comm]
  · simp [*]

/-- A token is minted from sixteen bytes and no others, each time another one,
and finds its way through a link. -/
theorem new_invite_tokens :
    (∀ entropy, (∃ token, newInviteToken entropy = .ok token) ↔
        entropy.length = inviteTokenBytes) ∧
      (∀ entropy entropy' token, newInviteToken entropy = .ok token →
        newInviteToken entropy' = .ok token → entropy = entropy') ∧
      ∀ entropy token, newInviteToken entropy = .ok token →
        (buildInvitePayload token).bind parseInvitePayload = .ok token := by
  refine ⟨fun entropy ↦ ?_, fun entropy entropy' token h h' ↦ ?_, fun entropy token h ↦ ?_⟩
  · simp only [newInviteToken_eq_ok, exists_and_left, exists_eq, and_true]
  · have heq := (newInviteToken_eq_ok.mp h).2.symm.trans (newInviteToken_eq_ok.mp h').2
    exact Base64.sextets_injective (List.map_injective_iff.mpr Base64.letter_injective heq)
  · obtain ⟨hlength, rfl⟩ := newInviteToken_eq_ok.mp h
    refine parse_build ⟨?_, ?_⟩
    · rw [List.length_map, Base64.length_sextets, hlength]
      rfl
    · rw [List.forall_mem_map]
      exact fun s _ ↦ isTokenChar_letter s

/-- What is written is read back. What is read is the grammar, and written as
it was, exactly unless a newline stands behind it. -/
theorem invite_payload_grammar_iff (raw : Text) :
    (∀ token, IsToken token → (buildInvitePayload token).bind parseInvitePayload = .ok token) ∧
      ((((∃ token, parseInvitePayload raw = .ok token) ↔ IsInvitePayload raw) ∧
          ∀ token, parseInvitePayload raw = .ok token → buildInvitePayload token = .ok raw ∧
            raw.length ≤ deepLinkMaxLength ∧ ∀ c ∈ raw, isTokenChar c = true) ↔
        ¬∃ token, IsToken token ∧ raw = inviteDeepLinkPrefix ++ token ++ ['\n']) := by
  refine ⟨fun token h ↦ parse_build h, ?_⟩
  constructor
  · rintro ⟨-, hread⟩ ⟨token, htoken, rfl⟩
    have hparse := parseInvitePayload_eq_ok.mpr ⟨accepts_tokenPattern.mpr (.inr ⟨token, htoken, rfl⟩),
      (List.append_assoc inviteDeepLinkPrefix token ['\n'])⟩
    cases (hread _ hparse).2.2 '\n' (by simp)
  · intro hline
    have hwhole : ∀ token, parseInvitePayload raw = .ok token →
        IsToken token ∧ raw = inviteDeepLinkPrefix ++ token := by
      intro token h
      obtain ⟨haccepts, rfl⟩ := parseInvitePayload_eq_ok.mp h
      rcases accepts_tokenPattern.mp haccepts with htoken | ⟨core, hcore, rfl⟩
      · exact ⟨htoken, rfl⟩
      · exact absurd ⟨core, hcore, (List.append_assoc _ _ _).symm⟩ hline
    refine ⟨⟨?_, ?_⟩, fun token h ↦ ?_⟩
    · rintro ⟨token, h⟩
      exact ⟨token, hwhole token h⟩
    · rintro ⟨token, htoken, rfl⟩
      exact ⟨token, parseInvitePayload_eq_ok.mpr ⟨accepts_tokenPattern.mpr (.inl htoken), rfl⟩⟩
    · obtain ⟨htoken, rfl⟩ := hwhole token h
      have hlength := htoken.1
      rw [inviteTokenLength] at hlength
      refine ⟨buildInvitePayload_eq_ok (by omega), ?_, ?_⟩
      · rw [List.length_append, hlength]
        decide
      · intro c hc
        rcases List.mem_append.mp hc with hc | hc
        · exact List.all_eq_true.mp (by decide : inviteDeepLinkPrefix.all isTokenChar = true) c hc
        · exact htoken.2 c hc

/-- With a newline behind it an invitation is still taken for one. -/
theorem newline_ends_a_token :
    parseInvitePayload "inv_AAAAAAAAAAAAAAAAAAAAAA\n".toList =
        .ok "AAAAAAAAAAAAAAAAAAAAAA\n".toList ∧
      ¬IsInvitePayload "inv_AAAAAAAAAAAAAAAAAAAAAA\n".toList := by
  refine ⟨by decide, ?_⟩
  rintro ⟨token, htoken, heq⟩
  have hlength := congrArg List.length heq
  rw [List.length_append, htoken.1] at hlength
  cases hlength

end Links

end Remindo.Domain
