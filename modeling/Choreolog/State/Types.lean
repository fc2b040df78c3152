import Choreolog.Lib.Text

/-! # Identifiers, time and geometry

`cpp-runtime/src/state/types.cpp` and `cpp-runtime/include/choreoos/state/error.hpp`: every value is built
by a function that checks it, so the types carry what was checked. Log indexes and terms are `Nat`; a
coordinate and a tick keep the bound that their constructors check. -/

namespace Choreolog.State
open Lib

inductive ErrorCode where
  | emptyId
  | invalidId
  | invalidStage
  | invalidCoordinate
  | invalidTick
  | invalidTerm
  | invalidTravel
  | outOfBounds
  | choreographyNotFound
  | choreographyExists
  | dancerExists
  | dancerNotFound
  | dancerInactive
  | positionOccupied
  | travelTooFar
  | formationExists
  | formationNotFound
  | invalidFormation
  | cueExists
  | cueDependencyUnmet
  | duplicateCommand
  | conflictingEvent
  | indexGap
  | unsupportedVersion
  | unsupportedType
  | storeError
  | notLeader
  | unavailable
  | protocolError
  | commandConflict
  | outcomeUnavailable
  deriving DecidableEq, Repr

structure Error where
  code : ErrorCode
  message : String
  deriving DecidableEq, Repr

abbrev Result := Except Error

/-! ## Identifiers -/

/-- `kMaxIdLength` -/
def maxIdLength : Nat := 64

def isAllowedIdChar (ch : Char) : Bool := ch.isAlphanum || ch == '_' || ch == '.' || ch == ':' || ch == '-'

def validId (raw : String) : Bool :=
  raw != "" && raw.utf8ByteSize ≤ maxIdLength && raw.toList.all isAllowedIdChar

theorem isAllowedIdChar_ascii {c : Char} (h : isAllowedIdChar c = true) : c.toNat < 128 := by
  unfold isAllowedIdChar Char.isAlphanum Char.isAlpha Char.isUpper Char.isLower Char.isDigit at h
  simp only [Bool.or_eq_true, Bool.and_eq_true, decide_eq_true_eq, beq_iff_eq] at h
  rcases h with (((((h | h) | h) | rfl) | rfl) | rfl) | rfl
  · exact Nat.lt_of_le_of_lt h.2 (by decide)
  · exact Nat.lt_of_le_of_lt h.2 (by decide)
  · exact Nat.lt_of_le_of_lt h.2 (by decide)
  all_goals decide

theorem validId_iff {raw : String} :
    validId raw = true ↔ raw ≠ "" ∧ raw.toList.length ≤ maxIdLength ∧ ∀ c ∈ raw.toList, isAllowedIdChar c = true := by
  unfold validId
  rw [Bool.and_eq_true, Bool.and_eq_true, bne_iff_ne, decide_eq_true_eq, List.all_eq_true, and_assoc]
  refine and_congr_right fun _ => and_congr_left fun hall => ?_
  rw [Text.utf8ByteSize_ascii fun c hc => isAllowedIdChar_ascii (hall c hc)]

inductive IdTag where
  | node
  | choreography
  | dancer
  | command
  | event
  | formation
  | cue
  deriving DecidableEq, Repr

/-- A checked identifier; the tag keeps the kinds apart. -/
@[ext] structure StrongId (tag : IdTag) where
  value : String
  valid : validId value = true
  deriving DecidableEq, Repr

abbrev NodeId := StrongId .node
abbrev ChoreographyId := StrongId .choreography
abbrev DancerId := StrongId .dancer
abbrev CommandId := StrongId .command
abbrev EventId := StrongId .event
abbrev FormationId := StrongId .formation
abbrev CueId := StrongId .cue

namespace StrongId
variable {tag : IdTag}

def parse (raw : String) : Result (StrongId tag) :=
  if h : validId raw then .ok ⟨raw, h⟩
  else if raw = "" then .error ⟨.emptyId, "id must not be empty"⟩
  else if maxIdLength < raw.utf8ByteSize then .error ⟨.invalidId, "id exceeds 64 characters"⟩
  else .error ⟨.invalidId, "id contains an unsupported character"⟩

@[simp] theorem parse_value (id : StrongId tag) : parse id.value = .ok id := by
  simp [parse, id.valid]

theorem parse_ok {raw : String} {id : StrongId tag} (h : parse raw = .ok id) : id.value = raw := by
  unfold parse at h
  split at h
  · cases h
    rfl
  · split at h
    · cases h
    · split at h <;> cases h

theorem ne_empty (id : StrongId tag) : id.value ≠ "" := by
  have := id.valid
  simp only [validId, Bool.and_eq_true, bne_iff_ne, ne_eq] at this
  exact this.1.1

theorem allowed (id : StrongId tag) : ∀ c ∈ id.value.toList, isAllowedIdChar c = true := by
  have := id.valid
  simp only [validId, Bool.and_eq_true, List.all_eq_true] at this
  exact this.2

theorem length_le (id : StrongId tag) : id.value.utf8ByteSize ≤ maxIdLength := by
  have := id.valid
  simp only [validId, Bool.and_eq_true, decide_eq_true_eq] at this
  exact this.1.2

/-- The separators of every text format stay outside identifiers. -/
theorem not_mem (id : StrongId tag) {c : Char} (h : isAllowedIdChar c = false) : c ∉ id.value.toList := by
  intro hc
  rw [id.allowed c hc] at h
  cases h

end StrongId

/-! ## Time -/

/-- Non-negative musical time, a 64-bit signed count in the source. -/
structure MusicalTick where
  ticks : Nat
  bound : ticks < 2 ^ 63
  deriving DecidableEq, Repr

theorem MusicalTick.zero_lt : 0 < 2 ^ 63 := by decide

def MusicalTick.fromTicks (ticks : Int) : Result MusicalTick :=
  if h : 0 ≤ ticks ∧ ticks.toNat < 2 ^ 63 then .ok ⟨ticks.toNat, h.2⟩
  else .error ⟨.invalidTick, "musical ticks must be non-negative"⟩

@[simp] theorem MusicalTick.fromTicks_ticks (t : MusicalTick) : fromTicks t.ticks = .ok t := by
  unfold fromTicks
  rw [dif_pos ⟨Int.natCast_nonneg _, t.bound⟩]
  rfl

/-- `Term::parse`: terms start at 1. -/
def parseTerm (value : Nat) : Result Nat :=
  if value = 0 then .error ⟨.invalidTerm, "term must be greater than zero"⟩ else .ok value

/-! ## Geometry -/

/-- `kMaxStageMm` -/
def maxStageMm : Nat := 1000000

/-- A distance in millimeters within the 1km cap. -/
structure StageCoordinate where
  mm : Nat
  bound : mm ≤ maxStageMm
  deriving DecidableEq, Repr

def StageCoordinate.fromMm (mm : Int) : Result StageCoordinate :=
  if mm < 0 then .error ⟨.invalidCoordinate, "coordinate must be non-negative"⟩
  else if h : mm.toNat ≤ maxStageMm then .ok ⟨mm.toNat, h⟩
  else .error ⟨.invalidCoordinate, "coordinate exceeds the 1km implementation limit"⟩

@[simp] theorem StageCoordinate.fromMm_mm (c : StageCoordinate) : fromMm c.mm = .ok c := by
  simp [fromMm, c.bound]

structure Position where
  x : StageCoordinate
  y : StageCoordinate
  deriving DecidableEq, Repr

def Position.fromMm (x y : Int) : Result Position := do
  let x ← StageCoordinate.fromMm x
  let y ← StageCoordinate.fromMm y
  return ⟨x, y⟩

@[simp] theorem Position.fromMm_mm (p : Position) : fromMm p.x.mm p.y.mm = .ok p := by
  simp [fromMm, bind, Except.bind, pure, Except.pure]

/-- A floor of positive size. -/
structure StageBounds where
  width : StageCoordinate
  depth : StageCoordinate
  positive : 0 < width.mm ∧ 0 < depth.mm
  deriving DecidableEq, Repr

def StageBounds.create (width depth : StageCoordinate) : Result StageBounds :=
  if h : 0 < width.mm ∧ 0 < depth.mm then .ok ⟨width, depth, h⟩
  else .error ⟨.invalidStage, "stage width and depth must be greater than zero"⟩

def StageBounds.fromMm (width depth : Int) : Result StageBounds := do
  let width ← StageCoordinate.fromMm width
  let depth ← StageCoordinate.fromMm depth
  create width depth

@[simp] theorem StageBounds.fromMm_mm (s : StageBounds) : fromMm s.width.mm s.depth.mm = .ok s := by
  simp [fromMm, create, s.positive, bind, Except.bind]

/-- Inclusive: the far corner is still on stage. -/
def StageBounds.contains (s : StageBounds) (p : Position) : Bool :=
  p.x.mm ≤ s.width.mm && p.y.mm ≤ s.depth.mm

def squaredDistanceMm (source target : Position) : Int :=
  let dx : Int := target.x.mm - source.x.mm
  let dy : Int := target.y.mm - source.y.mm
  dx * dx + dy * dy

def travelWithinLimit (source target : Position) (maxTravelMm : Int) : Bool :=
  squaredDistanceMm source target ≤ maxTravelMm * maxTravelMm

/-- `kCurrentSchemaVersion` -/
def currentSchemaVersion : UInt16 := 1

end Choreolog.State
