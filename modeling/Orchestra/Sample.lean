import Orchestra.Info

/-!
# Samples

A sample is a candidate solution with its energy, where lower is better. A sample set keeps its
order; its first sample is the one of least energy, the earliest of several, and aggregation folds
samples with the same assignment into the first of them.
-/

namespace Orchestra

/-- A candidate solution. -/
structure Sample where
  values : List Int
  energy : Double
  occurrences : Nat
  metadata : Info
deriving Repr, Inhabited

/-- A sample observed once, without metadata. -/
def Sample.observed (values : List Int) (energy : Double) : Sample :=
  ⟨values, energy, 1, Info.empty⟩

/-- Equality of samples, comparing energies numerically. -/
def Sample.same (a b : Sample) : Bool :=
  a.values == b.values && a.energy.numericEq b.energy && a.occurrences == b.occurrences &&
    a.metadata.same b.metadata

/-- Folds a further sample of the same assignment into an earlier one. -/
def Sample.absorb (kept other : Sample) : Sample :=
  { kept with
    occurrences := kept.occurrences + other.occurrences
    metadata := kept.metadata.merge other.metadata }

/-- An ordered collection of samples. -/
structure SampleSet where
  toList : List Sample
deriving Repr, Inhabited

namespace SampleSet

/-- The set without samples. -/
def empty : SampleSet := ⟨[]⟩

/-- Samples with the given energies, numbered by position. -/
def ofEnergies (energies : List Double) : SampleSet :=
  ⟨energies.mapIdx fun i e => Sample.observed [(i : Int)] e⟩

/-- The number of samples. -/
def size (set : SampleSet) : Nat :=
  set.toList.length

/-- The better of two samples, the first one on a tie. -/
def better (best : Option Sample) (s : Sample) : Option Sample :=
  match best with
  | some held => if s.energy.below held.energy then some s else some held
  | none => some s

/-- The sample of least energy, the earliest of several. -/
def first? (set : SampleSet) : Option Sample :=
  set.toList.foldl better none

/-- The energies in order. -/
def energies (set : SampleSet) : List Double :=
  set.toList.map Sample.energy

/-- Appends a sample. -/
def push (set : SampleSet) (s : Sample) : SampleSet :=
  ⟨set.toList ++ [s]⟩

/-- Changes every sample. -/
def map (f : Sample → Sample) (set : SampleSet) : SampleSet :=
  ⟨set.toList.map f⟩

/-- Concatenates sets in order. -/
def concat (sets : List SampleSet) : SampleSet :=
  ⟨sets.flatMap toList⟩

/-- Adds a sample to those already aggregated: the one with its assignment absorbs it, or else it
comes last. -/
def gather (s : Sample) : List Sample → List Sample
  | [] => [s]
  | kept :: rest =>
    if kept.values = s.values then kept.absorb s :: rest else kept :: gather s rest

/-- Folds samples with the same assignment, in the order of their first appearance. -/
def aggregate (set : SampleSet) : SampleSet :=
  ⟨set.toList.foldl (fun kept s => gather s kept) []⟩

/-- Equality of sets, comparing energies numerically. -/
def same (a b : SampleSet) : Bool :=
  a.size == b.size && (a.toList.zip b.toList).all fun (x, y) => x.same y

end SampleSet

/-- A value together with the storage that holds it. Copies share storage until one is changed. -/
structure Stored (α : Type) where
  storage : Nat
  value : α
deriving Repr

namespace Stored

variable {α : Type}

/-- Changes the value, moving it to fresh storage so that other copies keep theirs. -/
def update (fresh : Nat) (f : α → α) (s : Stored α) : Stored α :=
  ⟨fresh, f s.value⟩

/-- Whether two copies still share storage. -/
def shares (a b : Stored α) : Bool :=
  a.storage == b.storage

end Stored

end Orchestra
