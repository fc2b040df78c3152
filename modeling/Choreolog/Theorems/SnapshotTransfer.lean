import Choreolog.Theorems.Messages
import Choreolog.Theorems.Replicas

/-! # Snapshots in chunks

Chunks may be lost, repeated, overtaken or mixed with those of other transfers. A follower puts a prefix of the
payload together, and what it installs is the payload. -/

namespace Choreolog.Replication
open Lib State Storage Protocol
open Lib.Program (Triple)

namespace Replica

/-- The payload for an index, a term and a hash. -/
abbrev Source := Nat → Nat → String → String

variable {source : Source} {e : FileEngine} {d : Disk} {message : InstallSnapshot} {correlation : Nat}

/-- The snapshot that a header is about. -/
def promised (source : Source) (message : InstallSnapshot) : Snapshot :=
  { index := message.lastIncludedIndex, term := message.lastIncludedTerm, stateHash := message.stateHash
    statePayload := source message.lastIncludedIndex message.lastIncludedTerm message.stateHash }

/-- The calls of the store that chunks lead to. -/
inductive Call (source : Source) : Store FileEngine Unit → Prop
  | install (message : InstallSnapshot) {state : ChoreographyState} (sound : verifySnapshot (promised source message) = .ok state) :
      Call source (FileEngine.installSnapshot (promised source message))
  | term (t : Nat) : Call source (FileEngine.persistConsensus t none)

/-- What such calls make of a store and its directory, whether they fail or not. -/
inductive Whole (source : Source) (e : FileEngine) (d : Disk) : FileEngine → Disk → Prop
  | start : Whole source e d e d
  | call {e' : FileEngine} {d' : Disk} {m : Store FileEngine Unit} (h : Whole source e d e' d') (hm : Call source m) :
      Whole source e d (m e' d').memory (m e' d').disk

/-- A crash between the calls or in one of them. -/
def Cut (source : Source) (e : FileEngine) (d : Disk) (w : World) : Prop :=
  ∃ e' d', Whole source e d e' d' ∧ (w.disk = d' ∨ ∃ m, Call source m ∧ w.disk ∈ (m e' d').images)

structure Assembles (source : Source) (e : FileEngine) (d : Disk) (r : Replica) (w : World) : Prop where
  store : Whole source e d r.store w.disk
  data : ∀ s ∈ r.incomingSnapshot, s.data.toList <+: (source s.index s.term s.hash).toList

def Kept {α : Type} (source : Source) (e : FileEngine) (d : Disk) (m : Node α) : Prop :=
  Triple (Assembles source e d) m (fun _ => Assembles source e d) (fun _ => Assembles source e d) (Cut source e d)

namespace Kept
variable {α β : Type} {m m' : Node α}

theorem pure (a : α) : Kept source e d (pure a) := fun _ _ h => ⟨by rintro _ ⟨⟩, h⟩

theorem bind {f : α → Node β} (first : Kept source e d m) (rest : ∀ a, Kept source e d (f a)) : Kept source e d (m >>= f) :=
  Triple.bind _ first rest

theorem bind_memory {f : Replica → Node β} (rest : ∀ r, Kept source e d (f r)) : Kept source e d (.memory >>= f) :=
  Triple.bind_memory fun r => (rest r).strengthen fun _ _ h => h.2

theorem ite {c : Prop} [Decidable c] (yes : c → Kept source e d m) (no : ¬ c → Kept source e d m') :
    Kept source e d (if c then m else m') := Triple.ite yes no

/-- Neither the store nor what was assembled, unless that is dropped. -/
theorem assign {g : Replica → Replica} (store : ∀ r, (g r).store = r.store)
    (data : ∀ r, ∀ s ∈ (g r).incomingSnapshot, s ∈ r.incomingSnapshot) : Kept source e d (.assign g) :=
  Triple.assign fun r _ h => ⟨(store r).symm ▸ h.store, fun s hs => h.data s (data r s hs)⟩

theorem send (name : String) (frame : Frame) : Kept source e d (send name frame) := by
  refine .bind_memory fun r => .ite (fun _ => .pure ()) fun _ => .ite (fun _ => .assign (fun _ => rfl) fun _ _ hs => hs) fun _ => ?_
  refine Triple.write (fun r w h => ⟨h.store, h.data⟩) fun r w h => ?_
  exact ⟨⟨_, _, h.store, .inl rfl⟩, by rintro _ ⟨⟩, ⟨_, _, h.store, .inl rfl⟩⟩

theorem replyInstall (leader : String) (success : Bool) (offset : Nat) :
    Kept source e d (replyInstall leader correlation success offset) :=
  .bind_memory fun _ => .send _ _

theorem refuseInstall (leader : String) : Kept source e d (refuseInstall leader correlation) :=
  .bind (.assign (fun _ => rfl) (by rintro _ _ ⟨⟩)) fun _ => .replyInstall _ _ _

theorem onStore {m : Store FileEngine Unit} (hm : Call source m) : Kept source e d (onStore m) := by
  refine fun r w h => ⟨fun i hi => ?_, h.store.call hm, h.data⟩
  obtain ⟨disk, hdisk, rfl⟩ := List.mem_map.mp hi
  exact ⟨_, _, h.store, .inr ⟨m, hm, hdisk⟩⟩

theorem stepDown (term : Nat) : Kept source e d (stepDown term) := by
  refine .bind_memory fun r => .ite (fun _ => .pure _) fun _ => .ite (fun _ => .ite (fun _ => ?_) fun _ => .pure _) fun _ => ?_
  · exact .bind (.assign (fun _ => rfl) fun _ _ hs => hs) fun _ => .pure _
  · refine .bind (.onStore (.term term)) fun x => ?_
    cases x with
    | error _ => exact .bind (.assign (fun _ => rfl) fun _ _ hs => hs) fun _ => .pure _
    | ok _ => exact .bind (.assign (fun _ => rfl) fun _ _ hs => hs) fun _ => .pure _

theorem finishInstall : Kept source e d (finishInstall message correlation (promised source message).statePayload) := by
  refine .bind (.assign (fun _ => rfl) (by rintro _ _ ⟨⟩)) fun _ => ?_
  dsimp only
  split
  · exact .replyInstall _ _ _
  · rename_i hverify
    refine .bind (.onStore (.install message hverify)) fun x => ?_
    cases x with
    | error _ => exact .assign (fun _ => rfl) fun _ _ hs => hs
    | ok _ =>
      refine .bind (.assign (fun r => ?_) fun r s hs => ?_) fun _ => .replyInstall _ _ _
      · obtain ⟨_, _, h⟩ := rebuildSpeculative_cases r.rebuildCommandIndex
        rw [h]
        rfl
      · obtain ⟨_, _, h⟩ := rebuildSpeculative_cases r.rebuildCommandIndex
        rwa [h] at hs

end Kept

/-- A chunk that a leader cut from a payload. -/
def Chunk (source : Source) (message : InstallSnapshot) : Prop :=
  ∃ (leader : Replica) (snapshot : Snapshot) (offset : Nat), message = leader.chunk snapshot offset ∧
    snapshot.statePayload = source snapshot.index snapshot.term snapshot.stateHash

/-- It continues a prefix of the payload, and the last one completes it. -/
theorem Chunk.extends (h : Chunk source message) {data : String} (held : data.toList <+: (promised source message).statePayload.toList)
    (next : data.toList.length = message.offset) :
    (data ++ message.payload).toList <+: (promised source message).statePayload.toList ∧
      (message.more = false → data ++ message.payload = (promised source message).statePayload) := by
  obtain ⟨leader, snapshot, offset, rfl, hpayload⟩ := h
  have hpromised : (promised source (leader.chunk snapshot offset)).statePayload = snapshot.statePayload := hpayload.symm
  rw [hpromised] at held ⊢
  have hjoin : (data ++ (leader.chunk snapshot offset).payload).toList =
      snapshot.statePayload.toList.take (offset + min leader.config.maxSnapshotChunkBytes (snapshot.statePayload.toList.length - offset)) := by
    rw [List.take_add, String.toList_append, List.prefix_iff_eq_take.mp held, next]
    simp [chunk]
  refine ⟨hjoin ▸ List.take_prefix _ _, fun hmore => String.toList_inj.mp ?_⟩
  rw [hjoin, List.take_of_length_le (not_lt.mp (of_decide_eq_false hmore))]

theorem Kept.acceptChunk (h : Chunk source message) : Kept source e d (acceptChunk message correlation) := by
  refine .ite (fun _ => .refuseInstall _) fun _ => .bind (Triple.assign fun r w hr => ?_) fun _ => ?_
  · split
    · exact ⟨hr.store, by rintro _ ⟨⟩; exact List.nil_prefix⟩
    · exact hr
  refine Triple.bind_memory fun r => .fact (fun s w hs => hs.1 ▸ hs.2.data) fun hdata => .strengthen ?_ fun _ _ hs => hs.2
  change Kept source e d _
  split
  · exact .refuseInstall _
  · rename_i incoming hincoming
    obtain ⟨hmem, hheader⟩ := Option.filter_eq_some_iff.mp hincoming
    obtain ⟨hindex, hterm, hhash⟩ := of_decide_eq_true hheader
    have hheld := hdata incoming hmem
    rw [hindex, hterm, hhash] at hheld
    refine Kept.ite (fun _ => .refuseInstall _) fun hgap => .ite (fun _ => .replyInstall _ _ _) fun hseen => .ite (fun _ => .refuseInstall _) fun _ => ?_
    obtain ⟨hfront, hwhole⟩ := h.extends hheld (by omega)
    refine .ite (fun _ => .bind (Triple.assign fun r w hr => ⟨hr.store, ?_⟩) fun _ => .replyInstall _ _ _) fun hlast => ?_
    · rintro _ ⟨⟩
      rw [hindex, hterm, hhash]
      exact hfront
    · rw [hwhole (eq_false_of_ne_true hlast)]
      exact .finishInstall

theorem Kept.onInstall (h : Chunk source message) : Kept source e d (onInstall message correlation) := by
  refine .bind_memory fun r => .ite (fun _ => .pure _) fun _ => .ite (fun _ => ?_) fun _ => .ite (fun _ => .send _ _) fun _ => .acceptChunk h
  refine .ite (fun _ => .send _ _) fun _ => .bind (.ite (fun _ => .stepDown _) fun _ => .pure _) fun _ => .ite (fun _ => ?_) fun _ => .pure _
  exact .bind (.assign (fun _ => rfl) fun _ _ hs => hs) fun _ => .acceptChunk h

/-- A frame with a chunk. -/
def Carries (source : Source) (frame : Frame) : Prop :=
  ∃ message correlation, Chunk source message ∧ message.Fits ∧ frame = ⟨.installSnapshot, correlation, message.encode⟩

theorem Kept.handle {frame : Frame} (h : Carries source frame) (peer : String) : Kept source e d (handle frame peer) := by
  obtain ⟨message, correlation, hchunk, hfits, rfl⟩ := h
  refine .bind_memory fun r => .ite (fun _ => .pure _) fun _ => ?_
  dsimp only
  rw [InstallSnapshot.decode_encode hfits]
  split
  · rename_i hdecoded
    obtain rfl := Option.some.inj (Option.filter_eq_some_iff.mp hdecoded).1
    exact .onInstall hchunk
  · exact .pure _

/-- A leader with one snapshot. -/
def sender : Replica := { config := { id := "a", peers := ["b"] }, store := { options := {} } }

def offer : Snapshot := { index := 1, stateHash := "0123456789abcdef", statePayload := "abc" }

end Replica

end Choreolog.Replication
