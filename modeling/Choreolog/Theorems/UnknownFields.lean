import Choreolog.Protocol.ServiceCodec

/-! # Fields that a decoder does not know

A decoder passes over a field whose number and wire type it does not read. Most decoders cast the number to an
`int` first, so a number of more than 32 bits may be taken for one of theirs. -/

namespace Choreolog.Protocol
open Lib State

namespace Kind

/-- How the decoder makes the number that it compares. -/
def cast : Kind → Nat → Nat
  | managementQuery | managementReply => id
  | _ => Wire.narrow

/-- The message that a decoder starts from. -/
def fresh : (kind : Kind) → kind.Message
  | handshake => ({} : Handshake)
  | appendEntries => ({} : AppendEntries)
  | appendResponse => ({} : AppendEntriesResponse)
  | requestVote => ({} : RequestVote)
  | voteResponse => ({} : RequestVoteResponse)
  | installSnapshot => ({} : InstallSnapshot)
  | snapshotResponse => ({} : InstallSnapshotResponse)
  | protocolError => ({} : ProtocolError)
  | clientCommand => ({} : ClientCommand)
  | clientResponse => ({} : ClientResponse)
  | statusResponse => ({} : StatusResponse)
  | managementQuery => ({} : ManagementQuery)
  | managementReply => ({} : ManagementReply)

def set : (kind : Kind) → kind.Message → Nat → Wire.Value → Result kind.Message
  | handshake => Handshake.set
  | appendEntries => AppendEntries.set
  | appendResponse => AppendEntriesResponse.set
  | requestVote => RequestVote.set
  | voteResponse => RequestVoteResponse.set
  | installSnapshot => InstallSnapshot.set
  | snapshotResponse => InstallSnapshotResponse.set
  | protocolError => ProtocolError.set
  | clientCommand => ClientCommand.set
  | clientResponse => ClientResponse.set
  | statusResponse => StatusResponse.set
  | managementQuery => ManagementQuery.set
  | managementReply => ManagementReply.set

theorem decode_eq (kind : Kind) (bytes : List UInt8) :
    kind.decode bytes = Wire.decodeWith kind.cast Protocol.protocolError kind.set kind.fresh bytes := by
  cases kind <;> rfl

/-- The fields of each message by number, with the wire type that the decoder reads. -/
def fields : Kind → List (Nat × Nat)
  | handshake => [(1, 2), (2, 0), (3, 0)]
  | appendEntries => [(1, 0), (2, 2), (3, 0), (4, 0), (5, 2), (6, 0)]
  | appendResponse => [(1, 0), (2, 2), (3, 0), (4, 0), (5, 0)]
  | requestVote => [(1, 0), (2, 2), (3, 0), (4, 0)]
  | voteResponse => [(1, 0), (2, 2), (3, 0)]
  | installSnapshot => [(1, 0), (2, 2), (3, 0), (4, 0), (5, 2), (6, 2), (7, 0), (8, 0)]
  | snapshotResponse => [(1, 0), (2, 2), (3, 0), (4, 0)]
  | protocolError => [(1, 2), (2, 2)]
  | clientCommand => [(1, 2)]
  | clientResponse => [(1, 0), (2, 0), (3, 2), (4, 2), (5, 2), (6, 0), (7, 2), (8, 2)]
  | statusResponse => [(1, 2), (2, 2), (3, 2), (4, 0), (5, 0), (6, 0), (7, 2), (8, 2)]
  | managementQuery => [(1, 2), (2, 0), (3, 0), (4, 2), (5, 0), (6, 2)]
  | managementReply =>
    [(1, 2), (2, 2), (3, 2), (4, 0), (5, 0), (6, 0), (7, 0), (8, 0), (9, 0), (10, 0), (11, 0), (12, 0), (13, 0), (14, 0), (15, 0),
      (16, 2), (17, 2), (18, 2), (19, 0)]

/-- The field numbers of `proto/internal/choreoos.proto` -/
def schema (kind : Kind) : List Nat := kind.fields.map Prod.fst

/-- What a decoder does not read does not change the message. -/
theorem set_unknown {kind : Kind} {message : kind.Message} {field : Nat} {value : Wire.Value}
    (h : (field, value.type) ∉ kind.fields) : kind.set message field value = .ok message := by
  cases kind <;>
  · simp only [set, Handshake.set, AppendEntries.set, AppendEntriesResponse.set, RequestVote.set, RequestVoteResponse.set,
      InstallSnapshot.set, InstallSnapshotResponse.set, ProtocolError.set, ClientCommand.set, ClientResponse.set, StatusResponse.set,
      ManagementQuery.set, ManagementReply.set]
    -- Every branch but the last is one of the fields.
    split
    all_goals first | rfl | exact absurd (by simp [fields, Wire.Value.type]) h

instance decidableEqMessage : (kind : Kind) → DecidableEq kind.Message
  | handshake => inferInstanceAs (DecidableEq Handshake)
  | appendEntries => inferInstanceAs (DecidableEq AppendEntries)
  | appendResponse => inferInstanceAs (DecidableEq AppendEntriesResponse)
  | requestVote => inferInstanceAs (DecidableEq RequestVote)
  | voteResponse => inferInstanceAs (DecidableEq RequestVoteResponse)
  | installSnapshot => inferInstanceAs (DecidableEq InstallSnapshot)
  | snapshotResponse => inferInstanceAs (DecidableEq InstallSnapshotResponse)
  | protocolError => inferInstanceAs (DecidableEq ProtocolError)
  | clientCommand => inferInstanceAs (DecidableEq ClientCommand)
  | clientResponse => inferInstanceAs (DecidableEq ClientResponse)
  | statusResponse => inferInstanceAs (DecidableEq StatusResponse)
  | managementQuery => inferInstanceAs (DecidableEq ManagementQuery)
  | managementReply => inferInstanceAs (DecidableEq ManagementReply)

end Kind

/-- Inserting a field of this number and wire type between the fields of a message never changes what is read. -/
def Passes (kind : Kind) (number type : Nat) : Prop :=
  ∀ front inserted back value message, Wire.Fields front → Wire.FieldOf inserted number value → value.type = type →
    kind.decode (front ++ back) = .ok message → kind.decode (front ++ inserted ++ back) = .ok message

/-- A value that no field holds by default. -/
def sample (type : Nat) : Wire.Value := if type = 0 then .varint 2 else .bytes [65]

theorem set_sample (kind : Kind) : ∀ field ∈ kind.fields, (field.2 = 0 ∨ field.2 = 2) ∧
    kind.set kind.fresh field.1 (sample field.2) ≠ .ok kind.fresh := by
  cases kind <;> decide +kernel

theorem exists_sample {number type : Nat} (fits : number < 2 ^ 61) (h : type = 0 ∨ type = 2) :
    ∃ bytes, Wire.FieldOf bytes number (sample type) ∧ (sample type).type = type := by
  rcases h with rfl | rfl
  · exact ⟨_, .varint fits (by decide), rfl⟩
  · exact ⟨_, .bytes fits (by decide), rfl⟩

/-- A field is passed over if what the decoder makes of its number is not one of its own, and only then. -/
theorem passes_iff_cast {kind : Kind} {number type : Nat} (fits : number < 2 ^ 61) :
    Passes kind number type ↔ (kind.cast number, type) ∉ kind.fields := by
  constructor
  · intro hpasses hmem
    obtain ⟨htype, hset⟩ := set_sample kind _ hmem
    obtain ⟨bytes, hfield, hvalue⟩ := exists_sample fits htype
    have hread : kind.decode ([] ++ bytes ++ []) = .ok kind.fresh :=
      hpasses [] bytes [] _ kind.fresh .nil hfield hvalue (by rw [kind.decode_eq]; rfl)
    rw [kind.decode_eq, List.nil_append, hfield.decodeWith] at hread
    obtain ⟨message, hmessage, hrest⟩ := Wire.bind_eq_ok.mp hread
    rw [Wire.decodeWith_nil] at hrest
    exact hset (hmessage.trans hrest)
  · rintro hnot front inserted back value message hfront hfield rfl hread
    rw [kind.decode_eq] at hread ⊢
    rw [hfront.decodeWith_insert hfield fun _ => Kind.set_unknown hnot, hread]

/-- A field with a number outside of the schema is passed over by the decoders for management messages, and by the others
    unless the number modulo 2³² and the wire type are those of one of their fields. -/
theorem unknown_fields (kind : Kind) {number type : Nat} (fits : number < 2 ^ 61) (unknown : number ∉ kind.schema) :
    Passes kind number type ↔ kind = .managementQuery ∨ kind = .managementReply ∨ (number % 2 ^ 32, type) ∉ kind.fields := by
  have hwide : (number, type) ∉ kind.fields := fun h => unknown (List.mem_map_of_mem h)
  rw [passes_iff_cast fits]
  constructor
  · intro h
    cases kind with
    | managementQuery => exact .inl rfl
    | managementReply => exact .inr (.inl rfl)
    | _ => exact .inr (.inr h)
  · rintro (rfl | rfl | h)
    · exact hwide
    · exact hwide
    · cases kind with
      | managementQuery => exact hwide
      | managementReply => exact hwide
      | _ => exact h

theorem unknown_fields_small : Passes .appendEntries 7 0 :=
  (unknown_fields .appendEntries (by decide) (by decide)).mpr (.inr (.inr (by decide)))

/-- A field with the number 2³² + 1 is read as the term. -/
theorem unknown_field_read : 2 ^ 32 + 1 ∉ Kind.appendEntries.schema ∧
    Wire.FieldOf (Wire.key (2 ^ 32 + 1) 0 ++ Wire.varint 7) (2 ^ 32 + 1) (.varint 7) ∧ decodeAppendEntries [] = .ok {} ∧
    decodeAppendEntries (Wire.key (2 ^ 32 + 1) 0 ++ Wire.varint 7) = .ok { term := 7 } :=
  ⟨by decide, .varint (by decide) (by decide), rfl, by decide +kernel⟩

end Choreolog.Protocol
