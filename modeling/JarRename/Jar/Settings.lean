/-!
# Settings of a renaming run
-/
namespace JarRename.Jar

/-- What becomes of the signature of an archive, which no longer holds after renaming. -/
inductive SignaturePolicy where
  /-- Signature files and the digests in the manifest are left out. -/
  | strip
  | keep
  deriving DecidableEq, Repr, Inhabited

inductive Compression where
  | deflated | stored
  deriving DecidableEq, Repr, Inhabited

structure Settings where
  signaturePolicy : SignaturePolicy
  /-- Number of threads that rename classes. -/
  parallelism : Nat
  /-- Number of entries that are in memory at a time. -/
  batchSize : Nat
  /-- How files are written; folders are always stored. -/
  compression : Compression
  deriving DecidableEq, Repr, Inhabited

namespace Settings

def defaultBatchSize : Nat := 64

/-- The settings for a machine with this number of processors. -/
def forProcessors (count : Nat) : Settings := ⟨.strip, count, defaultBatchSize, .deflated⟩

/-- Zero is treated as one. -/
def withParallelism (settings : Settings) (count : Nat) : Settings :=
  { settings with parallelism := max count 1 }

/-- Zero is treated as one. -/
def withBatchSize (settings : Settings) (count : Nat) : Settings :=
  { settings with batchSize := max count 1 }

end Settings

end JarRename.Jar
