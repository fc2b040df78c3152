import Mathlib

/-! Programs with a memory, which a crash wipes, and a disk, which it leaves. A run yields its result, the
    memory and the disk, and the images: every disk at which a stop on the way would have left things. A
    triple says what a run achieves and what all its images satisfy. -/

namespace Lib

structure Outcome (ε μ δ α : Type) where
  result : Except ε α
  memory : μ
  disk : δ
  images : List δ

/-- Programs that may fail with `ε`, over a memory `μ` and a disk `δ`. -/
def Program (ε μ δ α : Type) : Type := μ → δ → Outcome ε μ δ α

namespace Program
variable {ε μ ν δ α β : Type}

protected def pure (a : α) : Program ε μ δ α := fun s d => ⟨.ok a, s, d, []⟩

protected def bind (m : Program ε μ δ α) (f : α → Program ε μ δ β) : Program ε μ δ β := fun s d =>
  let x := m s d
  match x.result with
  | .error e => ⟨.error e, x.memory, x.disk, x.images⟩
  | .ok a =>
    let y := f a x.memory x.disk
    ⟨y.result, y.memory, y.disk, x.images ++ y.images⟩

instance : Monad (Program ε μ δ) where
  pure := Program.pure
  bind := Program.bind

theorem bind_of_ok {m : Program ε μ δ α} {f : α → Program ε μ δ β} {s : μ} {d : δ} {a : α} (h : (m s d).result = .ok a) :
    (m >>= f) s d = { f a (m s d).memory (m s d).disk with
      images := (m s d).images ++ (f a (m s d).memory (m s d).disk).images } := by
  change Program.bind m f s d = _
  simp only [Program.bind, h]

theorem bind_of_error {m : Program ε μ δ α} {f : α → Program ε μ δ β} {s : μ} {d : δ} {e : ε}
    (h : (m s d).result = .error e) : (m >>= f) s d = ⟨.error e, (m s d).memory, (m s d).disk, (m s d).images⟩ := by
  change Program.bind m f s d = _
  simp only [Program.bind, h]

/-- A result that was computed without the disk. -/
def of (x : Except ε α) : Program ε μ δ α := fun s d => ⟨x, s, d, []⟩

def fail (e : ε) : Program ε μ δ α := of (.error e)

def memory : Program ε μ δ μ := fun s d => ⟨.ok s, s, d, []⟩

def disk : Program ε μ δ δ := fun s d => ⟨.ok d, s, d, []⟩

def assign (f : μ → μ) : Program ε μ δ Unit := fun s d => ⟨.ok (), f s, d, []⟩

/-- One write. A stop leaves the disk before it, the disk after it, or one of the torn disks between. -/
def write (f : δ → δ) (torn : δ → List δ) : Program ε μ δ Unit := fun s d => ⟨.ok (), s, f d, d :: (torn d ++ [f d])⟩

/-- Does something to the memory if the program fails. -/
def onError (f : μ → μ) (m : Program ε μ δ α) : Program ε μ δ α := fun s d =>
  let x := m s d
  match x.result with
  | .error e => ⟨.error e, f x.memory, x.disk, x.images⟩
  | .ok a => ⟨.ok a, x.memory, x.disk, x.images⟩

theorem onError_of_ok {f : μ → μ} {m : Program ε μ δ α} {s : μ} {d : δ} {a : α} (h : (m s d).result = .ok a) :
    onError f m s d = ⟨.ok a, (m s d).memory, (m s d).disk, (m s d).images⟩ := by
  simp only [onError, h]

theorem onError_of_error {f : μ → μ} {m : Program ε μ δ α} {s : μ} {d : δ} {e : ε} (h : (m s d).result = .error e) :
    onError f m s d = ⟨.error e, f (m s d).memory, (m s d).disk, (m s d).images⟩ := by
  simp only [onError, h]

/-- A program on parts of a larger memory and a larger disk. Its failure is a value. -/
def inside {ε' γ : Type} (part : ν → μ) (put : μ → ν → ν) (get : γ → δ) (set : δ → γ → γ) (m : Program ε μ δ α) :
    Program ε' ν γ (Except ε α) := fun s d =>
  let x := m (part s) (get d)
  ⟨.ok x.result, put x.memory s, set x.disk d, x.images.map fun i => set i d⟩

def forEach (f : α → Program ε μ δ Unit) : List α → Program ε μ δ Unit
  | [] => pure ()
  | a :: rest => do
    f a
    forEach f rest

/-! ### Running the first step -/

section Running
variable {s : μ} {d : δ}

@[simp] theorem memory_bind (f : μ → Program ε μ δ β) : (memory >>= f) s d = f s s d := rfl

@[simp] theorem disk_bind (f : δ → Program ε μ δ β) : (disk >>= f) s d = f d s d := rfl

@[simp] theorem assign_bind (g : μ → μ) (f : Unit → Program ε μ δ β) : (assign g >>= f) s d = f () (g s) d := rfl

@[simp] theorem of_ok_bind (a : α) (f : α → Program ε μ δ β) : (of (.ok a) >>= f) s d = f a s d := rfl

@[simp] theorem of_error_bind (e : ε) (f : α → Program ε μ δ β) : (of (.error e) >>= f) s d = ⟨.error e, s, d, []⟩ := rfl

end Running

/-- The program returns this result with this memory and disk. -/
structure Runs (m : Program ε μ δ α) (s : μ) (d : δ) (a : α) (s' : μ) (d' : δ) : Prop where
  result : (m s d).result = .ok a
  memory : (m s d).memory = s'
  disk : (m s d).disk = d'

namespace Runs
variable {m : Program ε μ δ α} {f : α → Program ε μ δ β} {s s' s'' : μ} {d d' d'' : δ} {a : α} {b : β}

theorem pure (a : α) : Runs (pure a : Program ε μ δ α) s d a s d := ⟨rfl, rfl, rfl⟩

theorem assign (g : μ → μ) : Runs (assign g : Program ε μ δ Unit) s d () (g s) d := ⟨rfl, rfl, rfl⟩

theorem bind (first : Runs m s d a s' d') (rest : Runs (f a) s' d' b s'' d'') : Runs (m >>= f) s d b s'' d'' := by
  obtain ⟨hresult, rfl, rfl⟩ := first
  obtain ⟨hresult', rfl, rfl⟩ := rest
  refine ⟨?_, ?_, ?_⟩
  · rw [bind_of_ok hresult]
    exact hresult'
  · rw [bind_of_ok hresult]
  · rw [bind_of_ok hresult]

theorem memory_bind {f : μ → Program ε μ δ β} (h : Runs (f s) s d b s' d') : Runs (Program.memory >>= f) s d b s' d' :=
  ⟨h.result, h.memory, h.disk⟩

theorem assign_bind {g : μ → μ} {f : Unit → Program ε μ δ β} (h : Runs (f ()) (g s) d b s' d') :
    Runs (Program.assign g >>= f) s d b s' d' :=
  ⟨h.result, h.memory, h.disk⟩

theorem of_bind {x : Except ε α} (hx : x = .ok a) (h : Runs (f a) s d b s' d') : Runs (Program.of x >>= f) s d b s' d' := by
  subst hx
  exact ⟨h.result, h.memory, h.disk⟩

theorem disk_bind {f : δ → Program ε μ δ β} (h : Runs (f d) s d b s' d') : Runs (Program.disk >>= f) s d b s' d' :=
  ⟨h.result, h.memory, h.disk⟩

theorem bind_cases (h : Runs (m >>= f) s d b s'' d'') : ∃ a s' d', Runs m s d a s' d' ∧ Runs (f a) s' d' b s'' d'' := by
  cases hresult : (m s d).result with
  | error e =>
    have := h.result
    rw [bind_of_error hresult] at this
    cases this
  | ok a =>
    obtain ⟨h₁, h₂, h₃⟩ := h
    rw [bind_of_ok hresult] at h₁ h₂ h₃
    exact ⟨a, _, _, ⟨hresult, rfl, rfl⟩, h₁, h₂, h₃⟩

theorem onError {g : μ → μ} (h : Runs m s d a s' d') : Runs (onError g m) s d a s' d' := by
  refine ⟨?_, ?_, ?_⟩ <;> rw [onError_of_ok h.result]
  · exact h.memory
  · exact h.disk

theorem inside {ε' γ : Type} {part : ν → μ} {put : μ → ν → ν} {get : γ → δ} {set : δ → γ → γ} {t : ν} {g : γ}
    (h : Runs m (part t) (get g) a s' d') :
    Runs (inside part put get set m : Program ε' ν γ (Except ε α)) t g (.ok a) (put s' t) (set d' g) := by
  obtain ⟨hresult, rfl, rfl⟩ := h
  exact ⟨congrArg Except.ok hresult, rfl, rfl⟩

end Runs

/-! ### Programs that leave the memory alone -/

def Steady (m : Program ε μ δ α) : Prop := ∀ s d, (m s d).memory = s

namespace Steady
variable {m m' : Program ε μ δ α} {f : α → Program ε μ δ β}

theorem pure (a : α) : Steady (pure a : Program ε μ δ α) := fun _ _ => rfl

theorem of (x : Except ε α) : Steady (of x : Program ε μ δ α) := fun _ _ => rfl

theorem fail (e : ε) : Steady (fail e : Program ε μ δ α) := fun _ _ => rfl

theorem disk : Steady (disk : Program ε μ δ δ) := fun _ _ => rfl

theorem write (g : δ → δ) (torn : δ → List δ) : Steady (write g torn : Program ε μ δ Unit) := fun _ _ => rfl

theorem bind (first : Steady m) (rest : ∀ a, Steady (f a)) : Steady (m >>= f) := by
  intro s d
  cases hm : (m s d).result with
  | error e =>
    rw [bind_of_error hm]
    exact first s d
  | ok a =>
    rw [bind_of_ok hm]
    exact (rest a _ _).trans (first s d)

theorem ite {c : Prop} [Decidable c] (yes : Steady m) (no : Steady m') : Steady (if c then m else m') := by
  split
  · exact yes
  · exact no

end Steady

/-! ### Programs that leave a part of the disk alone -/

def Frames {γ : Type} (part : δ → γ) (m : Program ε μ δ α) : Prop :=
  ∀ s d, part (m s d).disk = part d ∧ ∀ i ∈ (m s d).images, part i = part d

namespace Frames
variable {γ : Type} {part : δ → γ} {m m' : Program ε μ δ α} {f : α → Program ε μ δ β}

theorem pure (a : α) : Frames part (pure a : Program ε μ δ α) := fun _ _ => ⟨rfl, nofun⟩

theorem of (x : Except ε α) : Frames part (of x : Program ε μ δ α) := fun _ _ => ⟨rfl, nofun⟩

theorem fail (e : ε) : Frames part (fail e : Program ε μ δ α) := fun _ _ => ⟨rfl, nofun⟩

theorem memory : Frames part (memory : Program ε μ δ μ) := fun _ _ => ⟨rfl, nofun⟩

theorem disk : Frames part (disk : Program ε μ δ δ) := fun _ _ => ⟨rfl, nofun⟩

theorem assign (g : μ → μ) : Frames part (assign g : Program ε μ δ Unit) := fun _ _ => ⟨rfl, nofun⟩

theorem write {g : δ → δ} {torn : δ → List δ} (after : ∀ d, part (g d) = part d) (between : ∀ d, ∀ i ∈ torn d, part i = part d) :
    Frames part (write g torn : Program ε μ δ Unit) := by
  refine fun s d => ⟨after d, fun i hi => ?_⟩
  rcases List.mem_cons.mp hi with rfl | hi
  · rfl
  · rcases List.mem_append.mp hi with hi | hi
    · exact between d i hi
    · obtain rfl := List.mem_singleton.mp hi
      exact after d

theorem bind (first : Frames part m) (rest : ∀ a, Frames part (f a)) : Frames part (m >>= f) := by
  intro s d
  obtain ⟨hdisk, himages⟩ := first s d
  cases hm : (m s d).result with
  | error e =>
    rw [bind_of_error hm]
    exact ⟨hdisk, himages⟩
  | ok a =>
    rw [bind_of_ok hm]
    obtain ⟨hdisk', himages'⟩ := rest a (m s d).memory (m s d).disk
    refine ⟨hdisk'.trans hdisk, fun i hi => ?_⟩
    rcases List.mem_append.mp hi with hi | hi
    · exact himages i hi
    · exact (himages' i hi).trans hdisk

theorem ite {c : Prop} [Decidable c] (yes : Frames part m) (no : Frames part m') : Frames part (if c then m else m') := by
  split
  · exact yes
  · exact no

theorem onError (g : μ → μ) (h : Frames part m) : Frames part (onError g m) := by
  intro s d
  cases hm : (m s d).result with
  | error e =>
    rw [onError_of_error hm]
    exact h s d
  | ok a =>
    rw [onError_of_ok hm]
    exact h s d

end Frames

/-! ### Triples -/

/-- From a state with `pre` the program returns with `post` or fails with `error`, and all its images satisfy
    `crash`. -/
def Triple (pre : μ → δ → Prop) (m : Program ε μ δ α) (post : α → μ → δ → Prop) (error : ε → μ → δ → Prop)
    (crash : δ → Prop) : Prop :=
  ∀ s d, pre s d → (∀ i ∈ (m s d).images, crash i) ∧
    match (m s d).result with
    | .ok a => post a (m s d).memory (m s d).disk
    | .error e => error e (m s d).memory (m s d).disk

namespace Triple
variable {pre : μ → δ → Prop} {m : Program ε μ δ α} {f : α → Program ε μ δ β} {post : α → μ → δ → Prop}
  {error : ε → μ → δ → Prop} {crash : δ → Prop} {final : β → μ → δ → Prop}

theorem pure (a : α) : Triple (post a) (pure a : Program ε μ δ α) post error crash :=
  fun _ _ h => ⟨nofun, h⟩

/-- Running one program after another, with what holds between them. -/
theorem bind (post : α → μ → δ → Prop) (first : Triple pre m post error crash)
    (rest : ∀ a, Triple (post a) (f a) final error crash) : Triple pre (m >>= f) final error crash := by
  intro s d h
  obtain ⟨himages, hresult⟩ := first s d h
  cases hm : (m s d).result with
  | error e =>
    rw [hm] at hresult
    rw [bind_of_error hm]
    exact ⟨himages, hresult⟩
  | ok a =>
    rw [hm] at hresult
    rw [bind_of_ok hm]
    obtain ⟨himages', hresult'⟩ := rest a _ _ hresult
    refine ⟨fun i hi => ?_, hresult'⟩
    rcases List.mem_append.mp hi with hi | hi
    · exact himages i hi
    · exact himages' i hi

theorem consequence {pre' : μ → δ → Prop} {post' : α → μ → δ → Prop} {error' : ε → μ → δ → Prop} {crash' : δ → Prop}
    (h : Triple pre m post error crash) (hpre : ∀ s d, pre' s d → pre s d) (hpost : ∀ a s d, post a s d → post' a s d)
    (herror : ∀ e s d, error e s d → error' e s d) (hcrash : ∀ d, crash d → crash' d) :
    Triple pre' m post' error' crash' := by
  intro s d hs
  obtain ⟨himages, hresult⟩ := h s d (hpre s d hs)
  refine ⟨fun i hi => hcrash i (himages i hi), ?_⟩
  cases hm : (m s d).result with
  | error e =>
    rw [hm] at hresult
    exact herror e _ _ hresult
  | ok a =>
    rw [hm] at hresult
    exact hpost a _ _ hresult

/-- A program that cannot fail returns. -/
theorem returns {s : μ} {d : δ} (h : Triple pre m post (fun _ _ _ => False) crash) (hs : pre s d) :
    ∃ a, (m s d).result = .ok a ∧ post a (m s d).memory (m s d).disk := by
  obtain ⟨-, hresult⟩ := h s d hs
  cases hm : (m s d).result with
  | error e =>
    rw [hm] at hresult
    exact hresult.elim
  | ok a =>
    rw [hm] at hresult
    exact ⟨a, rfl, hresult⟩

/-- A fact that every state with `pre` entails may be used. -/
theorem fact {p : Prop} (entails : ∀ s d, pre s d → p) (h : p → Triple pre m post error crash) : Triple pre m post error crash :=
  fun s d hs => h (entails s d hs) s d hs

theorem strengthen {pre' : μ → δ → Prop} (h : Triple pre m post error crash) (hpre : ∀ s d, pre' s d → pre s d) :
    Triple pre' m post error crash :=
  fun s d hs => h s d (hpre s d hs)

/-- It is enough to start from each of several conditions. -/
theorem any {ι : Type} {cond : ι → μ → δ → Prop} (h : ∀ i, Triple (cond i) m post error crash) :
    Triple (fun s d => ∃ i, cond i s d) m post error crash := by
  rintro s d ⟨i, hi⟩
  exact h i s d hi

/-- It is enough to start from each state. -/
theorem each (h : ∀ s d, pre s d → Triple (fun s' d' => s' = s ∧ d' = d) m post error crash) : Triple pre m post error crash :=
  fun s d hs => h s d hs s d ⟨rfl, rfl⟩

theorem of {x : Except ε α} (ok : ∀ a s d, x = .ok a → pre s d → post a s d) (err : ∀ e s d, x = .error e → pre s d → error e s d) :
    Triple pre (of x) post error crash := by
  intro s d h
  refine ⟨nofun, ?_⟩
  cases x with
  | error e => exact err e s d rfl h
  | ok a => exact ok a s d rfl h

theorem fail {e : ε} : Triple (error e) (fail e : Program ε μ δ α) post error crash :=
  fun _ _ h => ⟨nofun, h⟩

theorem disk : Triple pre (disk : Program ε μ δ δ) (fun a s d => a = d ∧ pre s d) error crash :=
  fun _ _ h => ⟨nofun, rfl, h⟩

theorem assign {g : μ → μ} {post : Unit → μ → δ → Prop} (h : ∀ s d, pre s d → post () (g s) d) :
    Triple pre (assign g : Program ε μ δ Unit) post error crash :=
  fun s d hs => ⟨nofun, h s d hs⟩

theorem write {g : δ → δ} {torn : δ → List δ} {post : Unit → μ → δ → Prop} (after : ∀ s d, pre s d → post () s (g d))
    (stopped : ∀ s d, pre s d → crash d ∧ (∀ i ∈ torn d, crash i) ∧ crash (g d)) :
    Triple pre (write g torn : Program ε μ δ Unit) post error crash := by
  intro s d h
  obtain ⟨hbefore, htorn, hafter⟩ := stopped s d h
  refine ⟨fun i hi => ?_, after s d h⟩
  rcases List.mem_cons.mp hi with rfl | hi
  · exact hbefore
  · rcases List.mem_append.mp hi with hi | hi
    · exact htorn i hi
    · obtain rfl := List.mem_singleton.mp hi
      exact hafter

/-- A write that is not torn leads from `P` to `Q`; a stop finds one or the other. -/
theorem replace {P Q : δ → Prop} {g : δ → δ} (h : ∀ d, P d → Q (g d)) (before : ∀ d, P d → crash d) (after : ∀ d, Q d → crash d) :
    Triple (fun _ d => P d) (Program.write g fun _ => [] : Program ε μ δ Unit) (fun _ _ d => Q d) error crash :=
  .write (fun _ d hd => h d hd) fun _ d hd => ⟨before d hd, nofun, after _ (h d hd)⟩

/-- After a read the value is known. -/
theorem bind_returns {a : α} (h : ∀ s d, pre s d → m s d = ⟨.ok a, s, d, []⟩) (rest : Triple pre (f a) final error crash) :
    Triple pre (m >>= f) final error crash := by
  intro s d hs
  have hm := h s d hs
  rw [bind_of_ok (by rw [hm]), hm]
  simpa using rest s d hs

theorem bind_memory {f : μ → Program ε μ δ β} (rest : ∀ t, Triple (fun s d => s = t ∧ pre s d) (f t) final error crash) :
    Triple pre (Program.memory >>= f) final error crash :=
  fun s d hs => rest s s d ⟨rfl, hs⟩

theorem bind_disk {f : δ → Program ε μ δ β} (rest : ∀ e, Triple (fun s d => d = e ∧ pre s d) (f e) final error crash) :
    Triple pre (Program.disk >>= f) final error crash :=
  fun s d hs => rest d s d ⟨rfl, hs⟩

theorem bind_of {x : Except ε α} {a : α} (h : x = .ok a) (rest : Triple pre (f a) final error crash) :
    Triple pre (Program.of x >>= f) final error crash :=
  .bind_returns (fun _ _ _ => by rw [h]; rfl) rest

theorem ite {c : Prop} [Decidable c] {m' : Program ε μ δ α} (yes : c → Triple pre m post error crash)
    (no : ¬ c → Triple pre m' post error crash) : Triple pre (if c then m else m') post error crash := by
  split
  · exact yes ‹c›
  · exact no ‹¬ c›

theorem onError {g : μ → μ} {error' : ε → μ → δ → Prop} (h : Triple pre m post error' crash)
    (herror : ∀ e s d, error' e s d → error e (g s) d) : Triple pre (onError g m) post error crash := by
  intro s d hs
  obtain ⟨himages, hresult⟩ := h s d hs
  cases hm : (m s d).result with
  | error e =>
    rw [hm] at hresult
    rw [onError_of_error hm]
    exact ⟨himages, herror e _ _ hresult⟩
  | ok a =>
    rw [hm] at hresult
    rw [onError_of_ok hm]
    exact ⟨himages, hresult⟩

/-- The memory is still the one that it was. -/
theorem steady (h : Triple pre m post error crash) (steady : Steady m) (t : μ) :
    Triple (fun s d => s = t ∧ pre s d) m (fun a s d => s = t ∧ post a s d) (fun e s d => s = t ∧ error e s d) crash := by
  rintro s d ⟨rfl, hs⟩
  obtain ⟨himages, hresult⟩ := h s d hs
  refine ⟨himages, ?_⟩
  cases hm : (m s d).result with
  | error e =>
    rw [hm] at hresult
    exact ⟨steady s d, hresult⟩
  | ok a =>
    rw [hm] at hresult
    exact ⟨steady s d, hresult⟩

/-- Two triples of one program. -/
theorem and {pre' : μ → δ → Prop} {post' : α → μ → δ → Prop} {error' : ε → μ → δ → Prop} {crash' : δ → Prop}
    (h : Triple pre m post error crash) (h' : Triple pre' m post' error' crash') :
    Triple (fun s d => pre s d ∧ pre' s d) m (fun a s d => post a s d ∧ post' a s d) (fun e s d => error e s d ∧ error' e s d)
      fun d => crash d ∧ crash' d := by
  rintro s d ⟨hs, hs'⟩
  obtain ⟨himages, hresult⟩ := h s d hs
  obtain ⟨himages', hresult'⟩ := h' s d hs'
  refine ⟨fun i hi => ⟨himages i hi, himages' i hi⟩, ?_⟩
  cases hm : (m s d).result with
  | error e =>
    rw [hm] at hresult hresult'
    exact ⟨hresult, hresult'⟩
  | ok a =>
    rw [hm] at hresult hresult'
    exact ⟨hresult, hresult'⟩

/-- What a program leaves alone stays as it is. -/
theorem frame {γ : Type} {part : δ → γ} (frames : Frames part m) (P : γ → Prop) :
    Triple (fun _ d => P (part d)) m (fun _ _ d => P (part d)) (fun _ _ d => P (part d)) fun d => P (part d) := by
  intro s d hP
  obtain ⟨hdisk, himages⟩ := frames s d
  have hafter : P (part (m s d).disk) := by rwa [hdisk]
  refine ⟨fun i hi => ?_, ?_⟩
  · change P (part i)
    rwa [himages i hi]
  · cases (m s d).result with
    | error e => exact hafter
    | ok a => exact hafter

end Triple

end Program

end Lib
